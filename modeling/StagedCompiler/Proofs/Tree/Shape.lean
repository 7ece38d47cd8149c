import StagedCompiler.Ast
import StagedCompiler.Parser.Expr

/-!
The trees that a reader can build, faults or not. Each shape carries the
nesting that was still allowed where its reader started, so that what the
nesting does to trees is read off the shapes and not off the readers.
-/

namespace StagedCompiler

namespace NodeKind

variable {Name Child : Type}

def isAtom : NodeKind Name Child → Bool
  | ident _ | int _ | float _ | str _ | char _ | bool _ => true
  | _ => false

def isExpr : NodeKind Name Child → Bool
  | ident _ | int _ | float _ | str _ | char _ | bool _ | binary .. | unary .. | call .. | index ..
  | fieldAccess .. | arrayLit _ | structLit .. | range .. => true
  | _ => false

theorem isExpr_map {Name' Child' : Type} (f : Name → Name') (g : Child → Child')
    (kind : NodeKind Name Child) : (kind.map f g).isExpr = kind.isExpr := by
  cases kind <;> rfl

theorem children_of_isAtom {kind : NodeKind Name Child} (h : kind.isAtom = true) :
    kind.children = [] := by
  cases kind with
  | ident _ | int _ | float _ | str _ | char _ | bool _ => rfl
  | _ => cases h

end NodeKind

theorem InfixOp.children_node {Name Child : Type} (op : InfixOp) (lhs rhs : Child) :
    (op.node lhs rhs : NodeKind Name Child).children = [lhs, rhs] := by
  cases op <;> rfl

namespace Shape

inductive TypeAt : Nat → Tree → Prop
  | prim {n : Nat} (type : PrimType) (span : Span) : TypeAt (n + 1) (.node (.primType type) span)
  | named {n : Nat} (name : String) (span : Span) : TypeAt (n + 1) (.node (.namedType name) span)
  | array {n : Nat} {elem : Tree} (len : Nat) (span : Span) :
      TypeAt n elem → TypeAt (n + 1) (.node (.arrayType elem len) span)
  | ref {n : Nat} {inner : Tree} (mutable : Bool) (span : Span) :
      TypeAt n inner → TypeAt (n + 1) (.node (.refType mutable inner) span)

mutual

/-- A prefix takes a level, and so does an operand without one. -/
inductive Operand : Nat → Tree → Prop
  | unary {n : Nat} {x : Tree} (op : UnaryOp) (span : Span) :
      Operand n x → Operand (n + 1) (.node (.unary op x) span)
  | refRef {n : Nat} {x : Tree} (inner outer : Span) :
      Operand n x →
        Operand (n + 1) (.node (.unary .ref (.node (.unary .ref x) inner)) outer)
  | bare {n m : Nat} {t : Tree} : Postfixed n m t → Operand (n + 1) t

inductive Primary : Nat → Tree → Prop
  | atom {n : Nat} {kind : NodeKind String Tree} (span : Span) :
      kind.isAtom = true → Primary n (.node kind span)
  | group {n : Nat} {t : Tree} : Expr n t → Primary n t
  | array {n : Nat} {elems : List Tree} (span : Span) :
      (∀ t ∈ elems, Expr n t) → Primary n (.node (.arrayLit elems) span)
  | struct {n : Nat} {fields : List (FieldInit String Tree)} (name : String) (span : Span) :
      (∀ f ∈ fields, Expr n f.value) → Primary n (.node (.structLit name fields) span)

/-- A chain of postfix operations that started at the first depth and has come
down to the second. -/
inductive Postfixed : Nat → Nat → Tree → Prop
  | base {n : Nat} {t : Tree} : Primary n t → Postfixed n n t
  | call {n m : Nat} {callee : Tree} {args : List Tree} (span : Span) :
      Postfixed n (m + 1) callee → (∀ t ∈ args, Expr m t) →
        Postfixed n m (.node (.call callee args) span)
  | index {n m : Nat} {base place : Tree} (span : Span) :
      Postfixed n (m + 1) base → Expr m place → Postfixed n m (.node (.index base place) span)
  | field {n m : Nat} {base : Tree} (name : String) (span : Span) :
      Postfixed n (m + 1) base → Postfixed n m (.node (.fieldAccess base name) span)

/-- A chain of infix operators, likewise. -/
inductive Linked : Nat → Nat → Tree → Prop
  | first {n : Nat} {t : Tree} : Operand n t → Linked n n t
  | link {n m : Nat} {lhs rhs : Tree} (op : InfixOp) (span : Span) :
      Linked n (m + 1) lhs → Expr m rhs → Linked n m (.node (op.node lhs rhs) span)

inductive Expr : Nat → Tree → Prop
  | mk {n m : Nat} {t : Tree} : Linked n m t → Expr n t

end

mutual

inductive StmtAt : Nat → Tree → Prop
  | letStmt {n : Nat} {type init : Option Tree} (name : String) (mutable : Bool) (span : Span) :
      (∀ t ∈ type, TypeAt n t) → (∀ t ∈ init, Expr n t) →
        StmtAt n (.node (.letStmt name mutable type init) span)
  | assign {n : Nat} {target value : Tree} (op : AssignOp) (span : Span) :
      Expr n target → Expr n value → StmtAt n (.node (.assign target op value) span)
  | returnStmt {n : Nat} {value : Option Tree} (span : Span) :
      (∀ t ∈ value, Expr n t) → StmtAt n (.node (.returnStmt value) span)
  | exprStmt {n : Nat} {expr : Tree} (span : Span) :
      Expr n expr → StmtAt n (.node (.exprStmt expr) span)
  | whileStmt {n : Nat} {cond body : Tree} (span : Span) :
      Expr n cond → BlockAt n body → StmtAt n (.node (.whileStmt cond body) span)
  | forStmt {n : Nat} {iter body : Tree} (var : String) (span : Span) :
      Expr n iter → BlockAt n body → StmtAt n (.node (.forStmt var iter body) span)
  | breakStmt {n : Nat} (span : Span) : StmtAt n (.node .breakStmt span)
  | continueStmt {n : Nat} (span : Span) : StmtAt n (.node .continueStmt span)
  | block {n : Nat} {t : Tree} : BlockAt n t → StmtAt n t
  | conditional {n : Nat} {t : Tree} : ConditionalAt n t → StmtAt n t

inductive BlockAt : Nat → Tree → Prop
  | mk {n : Nat} {stmts : List Tree} (span : Span) :
      (∀ t ∈ stmts, StmtAt n t) → BlockAt (n + 1) (.node (.block stmts) span)

inductive ConditionalAt : Nat → Tree → Prop
  | mk {n : Nat} {cond thenBranch : Tree} {elseBranch : Option Tree} (span : Span) :
      Expr n cond → BlockAt n thenBranch → (∀ t ∈ elseBranch, ElseAt n t) →
        ConditionalAt (n + 1) (.node (.ifStmt cond thenBranch elseBranch) span)

inductive ElseAt : Nat → Tree → Prop
  | block {n : Nat} {t : Tree} : BlockAt n t → ElseAt n t
  | conditional {n : Nat} {t : Tree} : ConditionalAt n t → ElseAt n t

end

inductive ParamAt (n : Nat) : Tree → Prop
  | mk {type : Tree} (name : String) (mutable : Bool) (span : Span) :
      TypeAt n type → ParamAt n (.node (.param name mutable type) span)

inductive FieldAt (n : Nat) : Tree → Prop
  | mk {type : Tree} (name : String) (span : Span) :
      TypeAt n type → FieldAt n (.node (.field name type) span)

inductive ItemAt (n : Nat) : Tree → Prop
  | function {params : List Tree} {ret : Option Tree} {body : Tree} (name : String)
      (isPublic : Bool) (span : Span) :
      (∀ t ∈ params, ParamAt n t) → (∀ t ∈ ret, TypeAt n t) → BlockAt n body →
        ItemAt n (.node (.function name isPublic params ret body) span)
  | struct {fields : List Tree} (name : String) (span : Span) :
      (∀ t ∈ fields, FieldAt n t) → ItemAt n (.node (.struct name fields) span)
  | importPath (path : List String) (span : Span) : ItemAt n (.node (.importPath path) span)

inductive ProgramAt (n : Nat) : Tree → Prop
  | mk {items : List Tree} (span : Span) :
      (∀ t ∈ items, ItemAt n t) → ProgramAt n (.node (.program items) span)

end Shape

end StagedCompiler
