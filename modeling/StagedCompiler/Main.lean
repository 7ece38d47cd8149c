import StagedCompiler.CommandLine.Run

/-!
The command line on real files.
-/

namespace StagedCompiler.CommandLine

def usage : String :=
  "Usage: compile|tokens|parse FILE [--strict] [--config FILE] [--max-tokens N]\n" ++
  "         [--max-nodes N] [--max-children N] [--max-depth N] [-v]\n" ++
  "       compile also takes -o FILE and --embed-runtime\n" ++
  "       parse also takes --format pretty|json\n"

def faultOf : IO.Error → FileFault
  | .noFileOrDirectory .. => .notFound
  | .inappropriateType _ 20 _ => .notADirectory
  | .inappropriateType .. => .isADirectory
  | .invalidArgument _ 36 _ => .nameTooLong
  | e => .other (toString e)

def attempt {α : Type} (action : IO α) : IO (Except FileFault α) := do
  try
    return .ok (← action)
  catch e =>
    return .error (faultOf e)

instance : FileSystem IO where
  read path := attempt (IO.FS.readBinFile path)
  write path content := attempt (IO.FS.writeBinFile path content)

end StagedCompiler.CommandLine

open StagedCompiler.CommandLine in
def main (args : List String) : IO UInt32 := do
  match Invocation.read args with
  | .done inv =>
    let outcome ← inv.run
    IO.print outcome.stdout
    IO.eprint outcome.stderr
    return outcome.exitCode.toUInt32
  | .help =>
    IO.print usage
    return 0
  | .wrong =>
    IO.eprint usage
    return 2
