import StagedCompiler.Ast
import StagedCompiler.Diagnostic

/-!
Trees that have no C form. Each place of a unit takes certain kinds of nodes;
a node of any other kind is reported and left out.
-/

namespace StagedCompiler.Target

/-- A place of a unit that takes certain kinds of nodes only. -/
inductive Place where
  | topLevel
  | type
  | statement
  | expression
deriving DecidableEq

def Place.text : Place → String
  | topLevel => "at top level"
  | type => "in type position"
  | statement => "in statement position"
  | expression => "in expression position"

inductive Fault where
  /-- A node of the named kind where none of its kind can stand. -/
  | misplaced (label : String) (place : Place)
  | forOverNonRange
  | rangeOutsideFor
  | nonFiniteFloat
deriving DecidableEq

def Fault.subject : Fault → String
  | misplaced label place => label ++ " " ++ place.text
  | forOverNonRange => "`for` over a non-range"
  | rangeOutsideFor => "range outside a `for` header"
  | nonFiniteFloat => "non-finite float literal"

def Fault.message (f : Fault) : String :=
  "no C rendering for " ++ f.subject

inductive Note where
  | unsupported (fault : Fault) (span : Span)
  /-- An import, which has no C form and needs none. -/
  | skippedImport (path : List String)
  /-- A variable whose type is not known, so that it becomes an integer. -/
  | untypedLet (name : String)
deriving DecidableEq

def Note.diagnostic? : Note → Option Diagnostic
  | unsupported fault span => some ⟨.codegen, fault.message, some span⟩
  | skippedImport _ | untypedLet _ => none

/-- Why a node has no form as an expression by itself, if it has none. -/
def exprFault? {Child : Type} (kind : NodeKind String Child) : Option Fault :=
  match kind with
  | .ident _ | .int _ | .str _ | .char _ | .bool _ | .binary .. | .unary .. | .call .. | .index ..
  | .fieldAccess .. | .arrayLit _ | .structLit .. => none
  | .float v => if v.isFinite then none else some .nonFiniteFloat
  | .range .. => some .rangeOutsideFor
  | _ => some (.misplaced kind.label .expression)

/-- The faults of an expression, from left to right. What stands inside a node
without a form is left out with it. -/
def exprNotes (t : Tree) : List Note :=
  t.fold fun kind span children =>
    match exprFault? kind with
    | some fault => [.unsupported fault span]
    | none => children.flatten

end StagedCompiler.Target
