/-!
Operators and primitive type names of the source language, with their
spellings.
-/

namespace StagedCompiler

inductive BinaryOp where
  | or | and
  | bitOr | bitXor | bitAnd
  | eq | ne
  | lt | le | gt | ge
  | shl | shr
  | add | sub | mul | div | rem
deriving DecidableEq

def BinaryOp.text : BinaryOp → String
  | .or => "||"
  | .and => "&&"
  | .bitOr => "|"
  | .bitXor => "^"
  | .bitAnd => "&"
  | .eq => "=="
  | .ne => "!="
  | .lt => "<"
  | .le => "<="
  | .gt => ">"
  | .ge => ">="
  | .shl => "<<"
  | .shr => ">>"
  | .add => "+"
  | .sub => "-"
  | .mul => "*"
  | .div => "/"
  | .rem => "%"

def BinaryOp.isBoolean : BinaryOp → Bool
  | .or | .and | .eq | .ne | .lt | .le | .gt | .ge => true
  | _ => false

inductive UnaryOp where
  | not | neg | deref | ref | refMut
deriving DecidableEq

/-- The C spelling; both kinds of reference take an address. -/
def UnaryOp.text : UnaryOp → String
  | .not => "!"
  | .neg => "-"
  | .deref => "*"
  | .ref | .refMut => "&"

inductive AssignOp where
  | assign
  | add | sub | mul | div | rem
  | bitAnd | bitOr | bitXor
  | shl | shr
deriving DecidableEq

def AssignOp.text : AssignOp → String
  | .assign => "="
  | .add => "+="
  | .sub => "-="
  | .mul => "*="
  | .div => "/="
  | .rem => "%="
  | .bitAnd => "&="
  | .bitOr => "|="
  | .bitXor => "^="
  | .shl => "<<="
  | .shr => ">>="

inductive PrimType where
  | i8 | i16 | i32 | i64
  | u8 | u16 | u32 | u64 | usize
  | f32 | f64
  | bool | char | string | str
deriving DecidableEq

def PrimType.all : List PrimType :=
  [.i8, .i16, .i32, .i64, .u8, .u16, .u32, .u64, .usize, .f32, .f64, .bool, .char, .string, .str]

def PrimType.name : PrimType → String
  | .i8 => "i8"
  | .i16 => "i16"
  | .i32 => "i32"
  | .i64 => "i64"
  | .u8 => "u8"
  | .u16 => "u16"
  | .u32 => "u32"
  | .u64 => "u64"
  | .usize => "usize"
  | .f32 => "f32"
  | .f64 => "f64"
  | .bool => "bool"
  | .char => "char"
  | .string => "String"
  | .str => "str"

def PrimType.ofName? (name : String) : Option PrimType :=
  PrimType.all.find? (·.name == name)

end StagedCompiler
