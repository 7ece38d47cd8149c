import StagedCompiler.Span

/-!
What a stage reports about its input. A stage collects diagnostics in the
order in which it meets the faults, and hands them back beside its result or
in place of it.
-/

namespace StagedCompiler

inductive DiagnosticKind where
  /-- A stray character, a bad literal, or a literal or comment without end. -/
  | lex
  /-- A token that does not fit, or the lack of one. -/
  | parse
  /-- More tokens, nodes, children or nesting than the limits allow. -/
  | capacity
  /-- A tree that has no C form. -/
  | codegen
deriving DecidableEq

def DiagnosticKind.label : DiagnosticKind → String
  | .lex => "LexError"
  | .parse => "ParseError"
  | .capacity => "CapacityError"
  | .codegen => "CodegenError"

structure Diagnostic where
  kind : DiagnosticKind
  message : String
  span : Option Span
deriving DecidableEq

abbrev Diagnostics := Array Diagnostic

namespace Diagnostic

def isCapacity (d : Diagnostic) : Bool :=
  d.kind = .capacity

/-- One line without a file name: kind, place if known, message. -/
def display (d : Diagnostic) : String :=
  match d.span with
  | some s => s!"{d.kind.label} at {s.line}:{s.col}: {d.message}"
  | none => s!"{d.kind.label}: {d.message}"

/-- One line in the form editors jump to: file, place if known, kind, message. -/
def format (file : String) (d : Diagnostic) : String :=
  match d.span with
  | some s => s!"{file}:{s.line}:{s.col}: {d.kind.label}: {d.message}"
  | none => s!"{file}: {d.kind.label}: {d.message}"

end Diagnostic

def Diagnostics.display (ds : Diagnostics) : String :=
  "\n".intercalate (ds.toList.map Diagnostic.display)

def Diagnostics.hasKind (ds : Diagnostics) (kind : DiagnosticKind) : Bool :=
  ds.any fun d => decide (d.kind = kind)

inductive Exceeded where
  | tokens (limit : Nat)
  | nodes (limit : Nat)
  | children (node : String) (count limit : Nat)
  | depth (limit : Nat)
deriving DecidableEq

def Exceeded.message : Exceeded → String
  | .tokens limit => s!"token limit of {limit} exceeded"
  | .nodes limit => s!"AST node limit of {limit} exceeded"
  | .children node count limit => s!"{node} node has {count} children, limit is {limit}"
  | .depth limit => s!"nesting depth limit of {limit} exceeded"

def Exceeded.diagnostic (e : Exceeded) (span : Span) : Diagnostic :=
  ⟨.capacity, e.message, some span⟩

end StagedCompiler
