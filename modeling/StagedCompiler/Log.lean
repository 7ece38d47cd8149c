import StagedCompiler.Compile

/-!
What a run tells about its progress. Each stage adds its events as it goes, so
that they are kept also when a later stage fails.
-/

namespace StagedCompiler

inductive LogLevel where
  | warn | info | debug | trace
deriving DecidableEq

namespace LogLevel

def label : LogLevel → String
  | warn => "WARN"
  | info => "INFO"
  | debug => "DEBUG"
  | trace => "TRACE"

/-- How often more detail has to be asked for before a level is shown. -/
def rank : LogLevel → Nat
  | warn => 0
  | info => 1
  | debug => 2
  | trace => 3

end LogLevel

inductive Event where
  | lexed (tokens diagnostics : Nat)
  | recovering (d : Diagnostic)
  | parsed (nodes diagnostics : Nat)
  | noted (n : Target.Note)
  | generated (bytes diagnostics : Nat)
  | wrote (bytes : Nat) (path : String)

namespace Event

def level : Event → LogLevel
  | lexed .. | parsed .. | generated .. => .debug
  | noted (.unsupported ..) => .warn
  | noted (.skippedImport _) | noted (.untypedLet _) => .debug
  | recovering _ => .trace
  | wrote .. => .info

def message : Event → String
  | lexed tokens diagnostics => s!"lexed {tokens} tokens ({diagnostics} diagnostics)"
  | recovering d => "recovering from " ++ d.display
  | parsed nodes diagnostics => s!"parsed {nodes} nodes ({diagnostics} diagnostics)"
  | noted (.unsupported fault span) => s!"{span.line}:{span.col}: " ++ fault.message
  | noted (.skippedImport path) => "skipping import " ++ "::".intercalate path
  | noted (.untypedLet name) => "no type known for `" ++ name ++ "`, using long long"
  | generated bytes diagnostics => s!"generated {bytes} bytes of C ({diagnostics} diagnostics)"
  | wrote bytes path => s!"wrote {bytes} bytes to {path}"

def line (e : Event) : String :=
  "[" ++ e.level.label ++ "] " ++ e.message ++ "\n"

end Event

abbrev Logged := ExceptT Diagnostics (StateM (Array Event))

namespace Logged

def add (es : List Event) : Logged Unit :=
  modify fun log : Array Event => log ++ es

def tokenize (src : String) (opts : Options) : Logged Lexed := do
  let lexed ← ofExcept (lex src opts.limits)
  add [.lexed lexed.tokens.size lexed.diagnostics.size]
  ofExcept (lexed.accept opts)

/-- The faults that a parser recovered from are those it reported itself. One
that made it give up is the last, and is not among them. -/
def parse (lexed : Lexed) (opts : Options) : Logged Parsed := do
  let before := lexed.diagnostics.size
  match readProgram lexed opts with
  | .ok parsed =>
    add ((parsed.diagnostics.toList.drop before).map .recovering)
    add [.parsed parsed.ast.arena.size parsed.diagnostics.size]
    ofExcept (parsed.accept opts)
  | .error ds =>
    add ((ds.toList.drop before).dropLast.map .recovering)
    throw ds

def generate (ast : Ast) (opts : Options) : Logged Target.Generated := do
  let g := Target.render ast.tree opts.support
  add (g.notes.map .noted)
  add [.generated g.c.utf8ByteSize g.diagnostics.size]
  ofExcept (g.accept opts)

def parseSource (src : String) (opts : Options) : Logged Parsed := do
  parse (← tokenize src opts) opts

def compileSource (src : String) (opts : Options) : Logged Compilation := do
  let parsed ← parseSource src opts
  let generated ← observing (generate parsed.ast opts)
  ofExcept (parsed.withGenerated generated)

end Logged

end StagedCompiler
