import StagedCompiler.CommandLine.Arguments
import StagedCompiler.Files
import StagedCompiler.Json.Ast
import StagedCompiler.Json.Writer
import StagedCompiler.Log
import StagedCompiler.OptionsFile
import StagedCompiler.Outline
import StagedCompiler.Token.Listing

/-!
Commands carried out on a file system. What a command prints is collected:
results for the standard output; the log, then diagnostics or an error, for
the error output.
-/

namespace StagedCompiler

inductive Failure where
  | diagnostics (ds : Diagnostics)
  | unreadable (path : String) (fault : FileFault)
  | unwritable (path : String) (fault : FileFault)
  | tooLarge (bytes : Nat)
  | badOptions (path : String)

def Failure.subject : Failure → String
  | diagnostics ds => ds.display
  | unreadable path _ => "failed to read " ++ path
  | unwritable path _ => "failed to write " ++ path
  | tooLarge bytes => s!"source file exceeds 1MB limit ({bytes} bytes)"
  | badOptions path => "invalid options in " ++ path

def Failure.message (f : Failure) : String :=
  match f with
  | unreadable _ fault | unwritable _ fault => f.subject ++ ": " ++ fault.message
  | _ => f.subject

def maxSourceSize : Nat := 1000000

/-- Commands fail with a reason and keep their log. -/
abbrev Session (m : Type → Type) := ExceptT Failure (StateT (Array Event) m)

namespace Session

variable {m : Type → Type} [Monad m] [FileSystem m]

def onFile {α : Type} (action : m (Except FileFault α)) (reason : FileFault → Failure) :
    Session m α := do
  match ← action with
  | .ok x => return x
  | .error fault => throw (reason fault)

def stage {α : Type} (x : Logged α) : Session m α := do
  let (result, events) := x.run.run #[]
  modify fun log : Array Event => log ++ events
  match result with
  | .ok a => return a
  | .error ds => throw (.diagnostics ds)

def readSource (path : String) : Session m String := do
  let src ← onFile (readText path) (.unreadable path)
  if maxSourceSize < src.utf8ByteSize then throw (.tooLarge src.utf8ByteSize)
  return src

def loadOptions (path : String) : Session m Options := do
  let text ← onFile (readText path) (.unreadable path)
  match Options.parse? text with
  | some opts => return opts
  | none => throw (.badOptions path)

/-- Compile one file into another. Nothing is written if compilation fails. -/
def compileFile (input output : String) (opts : Options) : Session m Compilation := do
  let src ← readSource input
  let compilation ← stage (Logged.compileSource src opts)
  onFile (FileSystem.write output compilation.c.toUTF8) (.unwritable output)
  modify fun log : Array Event => log.push (.wrote compilation.c.utf8ByteSize output)
  return compilation

end Session

namespace CommandLine

open Session

variable {m : Type → Type} [Monad m] [FileSystem m]

def OptionArgs.resolve (args : OptionArgs) : Session m Options := do
  let opts ← match args.config with
    | some path => loadOptions path
    | none => pure {}
  let limits : Limits :=
    { maxTokens := args.maxTokens.getD opts.limits.maxTokens
      maxNodes := args.maxNodes.getD opts.limits.maxNodes
      maxChildren := args.maxChildren.getD opts.limits.maxChildren
      maxDepth := args.maxDepth.getD opts.limits.maxDepth }
  return {
    mode := if args.strict then .strict else opts.mode
    limits
    support := if args.embedSupport then .embedded else opts.support }

def showTree (format : TreeFormat) (ast : Ast) : String :=
  match format with
  | .pretty => ast.tree.outline
  | .json => (ast.toJson .plain).pretty ++ "\n"

def Command.run : Command → Session m (String × Diagnostics)
  | .compile file output args => do
    let opts ← args.resolve
    let compilation ← compileFile file (output.getD (Path.withExtension file "c")) opts
    return ("", compilation.diagnostics)
  | .tokens file args => do
    let opts ← args.resolve
    let src ← readSource file
    let lexed ← stage (Logged.tokenize src opts)
    return (lexed.listing, lexed.diagnostics)
  | .parse file format args => do
    let opts ← args.resolve
    let src ← readSource file
    let parsed ← stage (Logged.parseSource src opts)
    return (showTree format parsed.ast, parsed.diagnostics)

structure Outcome where
  exitCode : Nat
  stdout : String
  stderr : String

def logText (verbosity : Nat) (log : Array Event) : String :=
  String.join ((log.toList.filter fun e => decide (e.level.rank ≤ verbosity)).map Event.line)

def reportText (file : String) (ds : Diagnostics) : String :=
  String.join (ds.toList.map fun d => d.format file ++ "\n")

def failureText (file : String) : Failure → String
  | .diagnostics ds => reportText file ds
  | failure => "error: " ++ failure.message ++ "\n"

def Invocation.run (inv : Invocation) : m Outcome := do
  let file := inv.command.file
  let (result, log) ← inv.command.run.run.run #[]
  let logged := logText inv.verbosity log
  match result with
  | .ok (text, ds) => return ⟨0, text, logged ++ reportText file ds⟩
  | .error failure => return ⟨1, "", logged ++ failureText file failure⟩

end CommandLine

end StagedCompiler
