import StagedCompiler.Proofs.Tree.Shape

/-!
Sorts of nodes, and what the places of a node ask for. Any number fits any
place of a kind, so that a unit is well sorted is a property of its arena and
not of its types.
-/

namespace StagedCompiler

namespace NodeKind

variable {Name Child : Type}

def isItem : NodeKind Name Child → Bool
  | function .. | struct .. | importPath _ => true
  | _ => false

def isParam : NodeKind Name Child → Bool
  | param .. => true
  | _ => false

def isField : NodeKind Name Child → Bool
  | field .. => true
  | _ => false

def isBlock : NodeKind Name Child → Bool
  | block _ => true
  | _ => false

def isIf : NodeKind Name Child → Bool
  | ifStmt .. => true
  | _ => false

/-- What may stand behind `else`. -/
def isBranch : NodeKind Name Child → Bool
  | block _ | ifStmt .. => true
  | _ => false

def isStmt : NodeKind Name Child → Bool
  | block _ | letStmt .. | assign .. | returnStmt _ | exprStmt _ | ifStmt .. | whileStmt ..
  | forStmt .. | breakStmt | continueStmt => true
  | _ => false

/-- Every child is of the sort that its place asks for. `Is P child` says that
the child has a kind with the property `P`. -/
def WellSorted (Is : (NodeKind Name Child → Bool) → Child → Prop) : NodeKind Name Child → Prop
  | program items => ∀ item ∈ items, Is isItem item
  | function _ _ params ret body =>
      (∀ param ∈ params, Is isParam param) ∧ (∀ type ∈ ret, Is isType type) ∧ Is isBlock body
  | struct _ fields => ∀ field ∈ fields, Is isField field
  | field _ type | param _ _ type => Is isType type
  | block stmts => ∀ stmt ∈ stmts, Is isStmt stmt
  | letStmt _ _ type init => (∀ t ∈ type, Is isType t) ∧ ∀ value ∈ init, Is isExpr value
  | assign target _ value => Is isExpr target ∧ Is isExpr value
  | returnStmt value => ∀ result ∈ value, Is isExpr result
  | exprStmt expr => Is isExpr expr
  | ifStmt cond thenBranch elseBranch =>
      Is isExpr cond ∧ Is isBlock thenBranch ∧ ∀ branch ∈ elseBranch, Is isBranch branch
  | whileStmt cond body => Is isExpr cond ∧ Is isBlock body
  | forStmt _ iter body => Is isExpr iter ∧ Is isBlock body
  | binary _ lhs rhs => Is isExpr lhs ∧ Is isExpr rhs
  | unary _ operand => Is isExpr operand
  | call callee args => Is isExpr callee ∧ ∀ arg ∈ args, Is isExpr arg
  | index base place => Is isExpr base ∧ Is isExpr place
  | fieldAccess base _ => Is isExpr base
  | arrayLit elems => ∀ elem ∈ elems, Is isExpr elem
  | structLit _ fields => ∀ init ∈ fields, Is isExpr init.value
  | range start stop _ => Is isExpr start ∧ Is isExpr stop
  | arrayType elem _ => Is isType elem
  | refType _ inner => Is isType inner
  | importPath _ | breakStmt | continueStmt | ident _ | int _ | float _ | str _ | char _ | bool _
  | primType _ | namedType _ => True

/-- What a kind holds besides children is in order: numbers have the property
`Number`, a path has names, and a struct used as a type is not called like a
primitive type. -/
def Valued (Number : Int → Prop) (text : Name → String) : NodeKind Name Child → Prop
  | int value => Number value
  | arrayType _ len => Number len
  | importPath path => path ≠ []
  | namedType name => PrimType.ofName? (text name) = none
  | _ => True

def TargetsPlace (Is : (NodeKind Name Child → Bool) → Child → Prop) : NodeKind Name Child → Prop
  | assign target _ _ => Is isPlace target
  | _ => True

def Floating (Float : Double → Prop) : NodeKind Name Child → Prop
  | float value => Float value
  | _ => True

theorem isBranch_of_isBlock {kind : NodeKind Name Child} (h : kind.isBlock = true) :
    kind.isBranch = true := by
  cases kind with
  | block _ => rfl
  | _ => cases h

theorem isBranch_of_isIf {kind : NodeKind Name Child} (h : kind.isIf = true) :
    kind.isBranch = true := by
  cases kind with
  | ifStmt _ _ _ => rfl
  | _ => cases h

theorem isStmt_of_isBranch {kind : NodeKind Name Child} (h : kind.isBranch = true) :
    kind.isStmt = true := by
  cases kind with
  | block _ | ifStmt _ _ _ => rfl
  | _ => cases h

section

variable {Is Is' : (NodeKind Name Child → Bool) → Child → Prop} {Number Number' : Int → Prop}
  {text text' : Name → String} {kind : NodeKind Name Child}

theorem WellSorted.imp (h : kind.WellSorted Is) (hIs : ∀ P child, Is P child → Is' P child) :
    kind.WellSorted Is' := by
  cases kind <;> grind [WellSorted]

theorem TargetsPlace.imp (h : kind.TargetsPlace Is) (hIs : ∀ P child, Is P child → Is' P child) :
    kind.TargetsPlace Is' := by
  cases kind with
  | assign target op value => exact hIs _ _ h
  | _ => trivial

theorem Valued.imp (h : kind.Valued Number text) (hNumber : ∀ v, Number v → Number' v)
    (htext : ∀ name, PrimType.ofName? (text name) = none → PrimType.ofName? (text' name) = none) :
    kind.Valued Number' text' := by
  cases kind with
  | int value => exact hNumber _ h
  | arrayType elem len => exact hNumber _ h
  | namedType name => exact htext _ h
  | importPath path => exact h
  | _ => trivial

end

end NodeKind

def Arena.Is (a : Arena) (P : NodeKind Symbol NodeId → Bool) (id : NodeId) : Prop :=
  ∃ n, a.nodes[id]? = some n ∧ P n.kind = true

end StagedCompiler
