import StagedCompiler.Main
import StagedCompiler.Proofs.Lexer.Positions
import StagedCompiler.Proofs.Parser.CompactRoundTrip
import StagedCompiler.Proofs.Parser.DepthLimit
import StagedCompiler.Proofs.Parser.ItemRecovery
import StagedCompiler.Proofs.Cursor.BoundedRuns
import StagedCompiler.Proofs.Tree.AllocationRuns
import StagedCompiler.Proofs.Tree.Height
import StagedCompiler.Proofs.Tree.NameTables
import StagedCompiler.Proofs.Tree.NestedSpans
import StagedCompiler.Proofs.Tree.OutlineReading
import StagedCompiler.Proofs.CSyntax.Declarators
import StagedCompiler.Proofs.CSyntax.LiteralBytes
import StagedCompiler.Proofs.Target.CallTargets
import StagedCompiler.Proofs.Target.Formatting
import StagedCompiler.Proofs.Target.MemberAccess
import StagedCompiler.Proofs.Target.OffendingNodes
import StagedCompiler.Proofs.Target.PlaceTyping
import StagedCompiler.Proofs.Target.StagedDiagnostics
