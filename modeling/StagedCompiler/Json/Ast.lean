import StagedCompiler.Ast
import StagedCompiler.Decimal.Layout
import StagedCompiler.Json.Value

/-!
A parsed unit as a JSON document: all nodes in the order of their numbers, the
table of names, and the number of the root.
-/

namespace StagedCompiler

def BinaryOp.tag : BinaryOp → String
  | .or => "Or"
  | .and => "And"
  | .bitOr => "BitOr"
  | .bitXor => "BitXor"
  | .bitAnd => "BitAnd"
  | .eq => "Eq"
  | .ne => "Ne"
  | .lt => "Lt"
  | .le => "Le"
  | .gt => "Gt"
  | .ge => "Ge"
  | .shl => "Shl"
  | .shr => "Shr"
  | .add => "Add"
  | .sub => "Sub"
  | .mul => "Mul"
  | .div => "Div"
  | .rem => "Rem"

def UnaryOp.tag : UnaryOp → String
  | .not => "Not"
  | .neg => "Neg"
  | .deref => "Deref"
  | .ref => "Ref"
  | .refMut => "RefMut"

def AssignOp.tag : AssignOp → String
  | .assign => "Assign"
  | .add => "Add"
  | .sub => "Sub"
  | .mul => "Mul"
  | .div => "Div"
  | .rem => "Rem"
  | .bitAnd => "BitAnd"
  | .bitOr => "BitOr"
  | .bitXor => "BitXor"
  | .shl => "Shl"
  | .shr => "Shr"

def PrimType.tag : PrimType → String
  | .i8 => "I8"
  | .i16 => "I16"
  | .i32 => "I32"
  | .i64 => "I64"
  | .u8 => "U8"
  | .u16 => "U16"
  | .u32 => "U32"
  | .u64 => "U64"
  | .usize => "Usize"
  | .f32 => "F32"
  | .f64 => "F64"
  | .bool => "Bool"
  | .char => "Char"
  | .string => "String"
  | .str => "Str"

def Span.toJson (s : Span) : Json :=
  .struct [("start", .nat s.start), ("end", .nat s.stop), ("line", .nat s.line),
    ("col", .nat s.col)]

structure NumberForm where
  int : Int → Json
  float : Double → Json

/-- Floating-point numbers of a document: always with a point or an exponent,
and with a sign on every exponent. -/
def Json.floatLayout : Decimal.Layout where
  positional top := decide (-5 ≤ top ∧ top < 16)
  wholeMark := true
  plusSign := true
  tie := .toEven
  notANumber := "null"
  infinity := "null"
  negativeInfinity := "null"

def NumberForm.plain : NumberForm where
  int n := .number (toString n)
  float x := .number (Json.floatLayout.render x)

namespace NodeKind

def toJson (form : NumberForm) (kind : NodeKind Symbol NodeId) : Json :=
  let tagged (content : Json) : Json := .struct [(kind.label, content)]
  let record (members : List (String × Json)) : Json := tagged (.struct members)
  let ids (xs : List NodeId) : Json := .ofList .nat xs
  let id? (x : Option NodeId) : Json := .ofOption .nat x
  match kind with
  | program items => record [("items", ids items)]
  | function name isPublic params ret body =>
    record [("name", .nat name), ("public", .bool isPublic), ("params", ids params),
      ("ret", id? ret), ("body", .nat body)]
  | struct name fields => record [("name", .nat name), ("fields", ids fields)]
  | field name type => record [("name", .nat name), ("ty", .nat type)]
  | param name mutable type =>
    record [("name", .nat name), ("mutable", .bool mutable), ("ty", .nat type)]
  | importPath path => record [("path", ids path)]
  | block stmts => record [("stmts", ids stmts)]
  | letStmt name mutable type init =>
    record [("name", .nat name), ("mutable", .bool mutable), ("ty", id? type), ("init", id? init)]
  | assign target op value =>
    record [("target", .nat target), ("op", .text op.tag), ("value", .nat value)]
  | returnStmt value => record [("value", id? value)]
  | exprStmt expr => record [("expr", .nat expr)]
  | ifStmt cond thenBranch elseBranch =>
    record [("cond", .nat cond), ("then_branch", .nat thenBranch),
      ("else_branch", id? elseBranch)]
  | whileStmt cond body => record [("cond", .nat cond), ("body", .nat body)]
  | forStmt var iter body =>
    record [("var", .nat var), ("iter", .nat iter), ("body", .nat body)]
  | breakStmt | continueStmt => .text kind.label
  | ident name => tagged (.nat name)
  | int value => tagged (form.int value)
  | float value => tagged (form.float value)
  | str text => tagged (.nat text)
  | char value => tagged (.nat value.toNat)
  | bool value => tagged (.bool value)
  | binary op lhs rhs => record [("op", .text op.tag), ("lhs", .nat lhs), ("rhs", .nat rhs)]
  | unary op operand => record [("op", .text op.tag), ("operand", .nat operand)]
  | call callee args => record [("callee", .nat callee), ("args", ids args)]
  | index base place => record [("base", .nat base), ("index", .nat place)]
  | fieldAccess base name => record [("base", .nat base), ("field", .nat name)]
  | arrayLit elems => record [("elems", ids elems)]
  | structLit name fields =>
    let inits := fields.map fun f =>
      Json.struct [("name", .nat f.name), ("value", .nat f.value), ("span", f.span.toJson)]
    record [("name", .nat name), ("fields", .array inits)]
  | range start stop inclusive =>
    record [("start", .nat start), ("end", .nat stop), ("inclusive", .bool inclusive)]
  | primType type => record [("Prim", .text type.tag)]
  | namedType name => record [("Custom", .nat name)]
  | arrayType elem len =>
    record [("Array", .struct [("elem", .nat elem), ("len", form.int len)])]
  | refType mutable inner =>
    record [("Ref", .struct [("mutable", .bool mutable), ("inner", .nat inner)])]

end NodeKind

def Node.toJson (form : NumberForm) (n : Node) : Json :=
  .struct [("kind", n.kind.toJson form), ("span", n.span.toJson)]

def Ast.toJson (form : NumberForm) (ast : Ast) : Json :=
  .struct [
    ("arena", .struct [("nodes", .ofList (Node.toJson form) ast.arena.nodes.toList)]),
    ("interner", .struct [("strings", .ofList .text ast.names.strings.toList)]),
    ("root", .nat ast.root)]

end StagedCompiler
