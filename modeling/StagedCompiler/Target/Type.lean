import StagedCompiler.Ast

/-!
C types, how they are written, and which C type a type of the source language
becomes.
-/

namespace StagedCompiler.Target

inductive CType where
  | void
  /-- A scalar that is written as it is named, such as `long long`. -/
  | named (name : String)
  | struct (name : String)
  | ptr (target : CType)
  /-- An array of fixed size, which only a declaration can write. -/
  | array (elem : CType) (len : Nat)
deriving DecidableEq

namespace CType

def int : CType := named "long long"
def double : CType := named "double"
def bool : CType := named "int"
def char : CType := named "char"
def string : CType := named "const char*"

def ofPrim : PrimType → CType
  | .i8 => named "signed char"
  | .i16 => named "short"
  | .i32 => named "int"
  | .i64 => named "long long"
  | .u8 => named "unsigned char"
  | .u16 => named "unsigned short"
  | .u32 => named "unsigned int"
  | .u64 | .usize => named "unsigned long long"
  | .f32 => named "float"
  | .f64 => named "double"
  | .bool => named "int"
  | .char => named "char"
  | .string | .str => named "const char*"

/-- The type of a reference. Strings are pointers already, and a reference to
an array is a pointer to its elements. -/
def reference (target : CType) : CType :=
  if target = string then string
  else
    match target with
    | array elem _ => ptr elem
    | _ => ptr target

/-- The C type of a type tree; any other tree has none. -/
def ofTree? : Tree → Option CType
  | .node (.primType p) _ => some (ofPrim p)
  | .node (.namedType name) _ => some (struct name)
  | .node (.arrayType elem len) _ => (ofTree? elem).map (array · len)
  | .node (.refType _ inner) _ => (ofTree? inner).map reference
  | _ => none

def isPtr : CType → Bool
  | ptr _ => true
  | _ => false

def elem? : CType → Option CType
  | array elem _ => some elem
  | ptr target => some target
  | _ => none

def structName? : CType → Option String
  | struct name => some name
  | ptr (struct name) => some name
  | _ => none

/-- A type as casts and results write it; arrays become pointers. -/
def render : CType → String
  | void => "void"
  | named name => name
  | struct name => "struct " ++ name
  | ptr target => target.render ++ "*"
  | array elem _ => elem.render ++ "*"

def base : CType → CType
  | array elem _ => elem.base
  | t => t

def dims : CType → String
  | array elem len => "[" ++ toString len ++ "]" ++ elem.dims
  | _ => ""

def declare (t : CType) (name : String) : String :=
  t.base.render ++ " " ++ name ++ t.dims

end CType

end StagedCompiler.Target
