import StagedCompiler.Parser.Program
import StagedCompiler.Target.Unit

/-!
From source text to C text, stage by stage.
-/

namespace StagedCompiler

/-- C text with what was reported on the way and did not stop it. -/
structure Compilation where
  c : String
  diagnostics : Diagnostics

def Parsed.withGenerated (parsed : Parsed) (generated : Except Diagnostics Target.Generated) :
    Except Diagnostics Compilation :=
  match generated with
  | .ok g => .ok ⟨g.c, parsed.diagnostics ++ g.diagnostics⟩
  | .error ds => .error (parsed.diagnostics ++ ds)

/-- The C text of a source. A stage that fails ends the compilation with its
own diagnostics behind those of the stages before. -/
def compileSource (src : String) (opts : Options) : Except Diagnostics Compilation := do
  let parsed ← parseSource src opts
  parsed.withGenerated (Target.generate parsed.ast opts)

end StagedCompiler
