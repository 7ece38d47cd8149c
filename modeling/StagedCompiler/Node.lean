import StagedCompiler.Double
import StagedCompiler.Operator
import StagedCompiler.Span

/-!
The kinds of nodes of a syntax tree. A kind is generic in what stands for a
name and what stands for a child: in the arena both are handles, in a tree
they are the text and the subtree themselves.
-/

namespace StagedCompiler

structure FieldInit (Name Child : Type) where
  name : Name
  value : Child
  span : Span
deriving DecidableEq

inductive NodeKind (Name Child : Type) where
  | program (items : List Child)
  | function (name : Name) (isPublic : Bool) (params : List Child) (ret : Option Child)
      (body : Child)
  | struct (name : Name) (fields : List Child)
  | field (name : Name) (type : Child)
  | param (name : Name) (mutable : Bool) (type : Child)
  | importPath (path : List Name)
  | block (stmts : List Child)
  | letStmt (name : Name) (mutable : Bool) (type : Option Child) (init : Option Child)
  | assign (target : Child) (op : AssignOp) (value : Child)
  | returnStmt (value : Option Child)
  | exprStmt (expr : Child)
  /-- Behind `else` stands a block or a further conditional. -/
  | ifStmt (cond thenBranch : Child) (elseBranch : Option Child)
  | whileStmt (cond body : Child)
  | forStmt (var : Name) (iter body : Child)
  | breakStmt
  | continueStmt
  | ident (name : Name)
  | int (value : Int)
  | float (value : Double)
  | str (text : Name)
  | char (value : UInt8)
  | bool (value : Bool)
  | binary (op : BinaryOp) (lhs rhs : Child)
  | unary (op : UnaryOp) (operand : Child)
  | call (callee : Child) (args : List Child)
  | index (base place : Child)
  | fieldAccess (base : Child) (name : Name)
  | arrayLit (elems : List Child)
  | structLit (name : Name) (fields : List (FieldInit Name Child))
  | range (start stop : Child) (inclusive : Bool)
  | primType (type : PrimType)
  /-- A struct used as a type. -/
  | namedType (name : Name)
  | arrayType (elem : Child) (len : Nat)
  | refType (mutable : Bool) (inner : Child)
deriving DecidableEq

namespace NodeKind

variable {Name Child Name' Child' : Type}

def children : NodeKind Name Child → List Child
  | program items => items
  | function _ _ params ret body => params ++ ret.toList ++ [body]
  | struct _ fields => fields
  | field _ type => [type]
  | param _ _ type => [type]
  | block stmts => stmts
  | letStmt _ _ type init => type.toList ++ init.toList
  | assign target _ value => [target, value]
  | returnStmt value => value.toList
  | exprStmt expr => [expr]
  | ifStmt cond thenBranch elseBranch => [cond, thenBranch] ++ elseBranch.toList
  | whileStmt cond body => [cond, body]
  | forStmt _ iter body => [iter, body]
  | binary _ lhs rhs => [lhs, rhs]
  | unary _ operand => [operand]
  | call callee args => callee :: args
  | index base place => [base, place]
  | fieldAccess base _ => [base]
  | arrayLit elems => elems
  | structLit _ fields => fields.map (·.value)
  | range start stop _ => [start, stop]
  | arrayType elem _ => [elem]
  | refType _ inner => [inner]
  | importPath _ | breakStmt | continueStmt | ident _ | int _ | float _ | str _ | char _ | bool _
  | primType _ | namedType _ => []

def label : NodeKind Name Child → String
  | program _ => "Program"
  | function .. => "Function"
  | struct .. => "Struct"
  | field .. => "Field"
  | param .. => "Param"
  | importPath _ => "Import"
  | block _ => "Block"
  | letStmt .. => "Let"
  | assign .. => "Assign"
  | returnStmt _ => "Return"
  | exprStmt _ => "ExprStmt"
  | ifStmt .. => "If"
  | whileStmt .. => "While"
  | forStmt .. => "For"
  | breakStmt => "Break"
  | continueStmt => "Continue"
  | ident _ => "Ident"
  | int _ => "Int"
  | float _ => "Float"
  | str _ => "Str"
  | char _ => "Char"
  | bool _ => "Bool"
  | binary .. => "Binary"
  | unary .. => "Unary"
  | call .. => "Call"
  | index .. => "Index"
  | fieldAccess .. => "FieldAccess"
  | arrayLit _ => "ArrayLit"
  | structLit .. => "StructLit"
  | range .. => "Range"
  | primType _ | namedType _ | arrayType .. | refType .. => "Type"

def isType : NodeKind Name Child → Bool
  | primType _ | namedType _ | arrayType .. | refType .. => true
  | _ => false

def isPlace : NodeKind Name Child → Bool
  | ident _ | index .. | fieldAccess .. | unary .deref _ => true
  | _ => false

def map (f : Name → Name') (g : Child → Child') : NodeKind Name Child → NodeKind Name' Child'
  | program items => program (items.map g)
  | function name isPublic params ret body =>
      function (f name) isPublic (params.map g) (ret.map g) (g body)
  | struct name fields => struct (f name) (fields.map g)
  | field name type => field (f name) (g type)
  | param name mutable type => param (f name) mutable (g type)
  | importPath path => importPath (path.map f)
  | block stmts => block (stmts.map g)
  | letStmt name mutable type init => letStmt (f name) mutable (type.map g) (init.map g)
  | assign target op value => assign (g target) op (g value)
  | returnStmt value => returnStmt (value.map g)
  | exprStmt expr => exprStmt (g expr)
  | ifStmt cond thenBranch elseBranch => ifStmt (g cond) (g thenBranch) (elseBranch.map g)
  | whileStmt cond body => whileStmt (g cond) (g body)
  | forStmt var iter body => forStmt (f var) (g iter) (g body)
  | breakStmt => breakStmt
  | continueStmt => continueStmt
  | ident name => ident (f name)
  | int value => int value
  | float value => float value
  | str text => str (f text)
  | char value => char value
  | bool value => bool value
  | binary op lhs rhs => binary op (g lhs) (g rhs)
  | unary op operand => unary op (g operand)
  | call callee args => call (g callee) (args.map g)
  | index base place => index (g base) (g place)
  | fieldAccess base name => fieldAccess (g base) (f name)
  | arrayLit elems => arrayLit (elems.map g)
  | structLit name fields =>
      structLit (f name) (fields.map fun i => ⟨f i.name, g i.value, i.span⟩)
  | range start stop inclusive => range (g start) (g stop) inclusive
  | primType type => primType type
  | namedType name => namedType (f name)
  | arrayType elem len => arrayType (g elem) len
  | refType mutable inner => refType mutable (g inner)

/-- Replacing children keeps their order and number. -/
theorem children_map (f : Name → Name') (g : Child → Child') (k : NodeKind Name Child) :
    (k.map f g).children = k.children.map g := by
  cases k <;> simp [map, children, Option.toList_map]

end NodeKind

end StagedCompiler
