import StagedCompiler.Target.Fault
import StagedCompiler.Target.Literal
import StagedCompiler.Target.Scope
import StagedCompiler.Target.Support

/-!
Expressions as C text, and the C types that can be told from them. Every
operation is written in parentheses, so the text groups as the tree does.
-/

namespace StagedCompiler.Target

mutual

def infer (s : Scope) : Tree → Option CType
  | .node (.int _) _ => some .int
  | .node (.float _) _ => some .double
  | .node (.str _) _ => some .string
  | .node (.bool _) _ => some .bool
  | .node (.char _) _ => some .char
  | .node (.ident name) _ => s.var? name
  | .node (.binary op lhs rhs) _ =>
    if op.isBoolean then some .bool else (infer s lhs).or (infer s rhs)
  | .node (.unary .not _) _ => some .bool
  | .node (.unary .neg operand) _ => infer s operand
  | .node (.unary .deref operand) _ => (infer s operand).bind CType.elem?
  | .node (.unary .ref operand) _ => (infer s operand).map .ptr
  | .node (.unary .refMut operand) _ => (infer s operand).map .ptr
  | .node (.call (.node (.ident name) _) _) _ =>
    match Builtin.find? name with
    | some b => some b.retType
    | none => (s.fn? name).map (·.ret)
  | .node (.index base _) _ =>
    (infer s base).bind fun t => if t = .string then some .char else t.elem?
  | .node (.fieldAccess base field) _ =>
    (infer s base).bind fun t => t.structName?.bind fun name => s.fieldType? name field
  | .node (.arrayLit elems) _ => some (.array (inferFirst s elems) elems.length)
  | .node (.structLit name _) _ => some (.struct name)
  | _ => none

def inferFirst (s : Scope) : List Tree → CType
  | [] => .int
  | t :: _ => (infer s t).getD .int

end

/-- A field is reached through a pointer if its base is a variable of pointer
type. -/
def isThroughPtr (s : Scope) : Tree → Bool
  | .node (.ident name) _ => (s.var? name).any CType.isPtr
  | _ => false

mutual

/-- An expression. On the right of a declaration (`bare`) a literal in braces
needs no cast before it. -/
def expr (s : Scope) (bare : Bool) : Tree → String
  | .node (.ident name) _ => name
  | .node (.int value) _ => toString value
  | .node (.float value) _ => if value.isFinite then Literal.floatLayout.render value else ""
  | .node (.str text) _ => Literal.string text
  | .node (.char value) _ => Literal.char value
  | .node (.bool value) _ => if value then "1" else "0"
  | .node (.binary op lhs rhs) _ =>
    "(" ++ expr s false lhs ++ " " ++ op.text ++ " " ++ expr s false rhs ++ ")"
  | .node (.unary op operand) _ => "(" ++ op.text ++ expr s false operand ++ ")"
  | .node (.call (.node (.ident name) _) args) _ =>
    calleeName name ++ "(" ++ ", ".intercalate (exprs s false #[] args).toList ++ ")"
  | .node (.call callee args) _ =>
    expr s false callee ++ "(" ++ ", ".intercalate (exprs s false #[] args).toList ++ ")"
  | .node (.index base place) _ => expr s false base ++ "[" ++ expr s false place ++ "]"
  | .node (.fieldAccess base field) _ =>
    expr s false base ++ (if isThroughPtr s base then "->" else ".") ++ field
  | .node (.arrayLit elems) _ =>
    (if bare then "" else "(" ++ (inferFirst s elems).render ++ "[])") ++
      "\x7b" ++ ", ".intercalate (exprs s true #[] elems).toList ++ "\x7d"
  | .node (.structLit name fields) _ =>
    (if bare then "" else "(struct " ++ name ++ ")") ++
      (if fields.isEmpty then "\x7b0\x7d"
       else "\x7b " ++ ", ".intercalate (fieldExprs s #[] fields).toList ++ " \x7d")
  | _ => ""

def exprs (s : Scope) (bare : Bool) (done : Array String) : List Tree → Array String
  | [] => done
  | t :: ts => exprs s bare (done.push (expr s bare t)) ts

def fieldExprs (s : Scope) (done : Array String) : List (FieldInit String Tree) → Array String
  | [] => done
  | ⟨name, value, _⟩ :: fields =>
    fieldExprs s (done.push ("." ++ name ++ " = " ++ expr s true value)) fields

end

section

variable (s : Scope)

theorem exprs_eq (bare : Bool) (done : Array String) (ts : List Tree) :
    (exprs s bare done ts).toList = done.toList ++ ts.map (expr s bare) := by
  induction ts generalizing done with
  | nil => simp [exprs]
  | cons t ts ih => simp [exprs, ih]

theorem fieldExprs_eq (done : Array String) (fields : List (FieldInit String Tree)) :
    (fieldExprs s done fields).toList = done.toList ++
      fields.map fun field => "." ++ field.name ++ " = " ++ expr s true field.value := by
  induction fields generalizing done with
  | nil => simp [fieldExprs]
  | cons field fields ih => cases field; simp [fieldExprs, ih]

/-- What is called: a function by its C name, anything else as an expression. -/
def calleeText : Tree → String
  | .node (.ident name) _ => calleeName name
  | callee => expr s false callee

theorem expr_call (bare : Bool) (callee : Tree) (args : List Tree) (span : Span) :
    expr s bare (.node (.call callee args) span) =
      calleeText s callee ++ "(" ++ ", ".intercalate (args.map (expr s false)) ++ ")" := by
  have hargs : (exprs s false #[] args).toList = args.map (expr s false) :=
    exprs_eq s false #[] args
  obtain ⟨kind, place⟩ := callee
  rw [← hargs]
  cases kind <;> rw [expr, calleeText] <;> simp

end

def condition (s : Scope) : Tree → String
  | .node (.binary op lhs rhs) _ => expr s false lhs ++ " " ++ op.text ++ " " ++ expr s false rhs
  | t => expr s false t

end StagedCompiler.Target
