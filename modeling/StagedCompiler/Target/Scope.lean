import StagedCompiler.Target.Type
import Std.Data.TreeMap.Lemmas

/-!
What is known about the names of a unit. Functions and structs are known
everywhere. Variables are known in their function from their declaration on,
also behind the block that declares them, and the latest declaration counts.
-/

namespace StagedCompiler.Target

structure Signature where
  params : List CType
  ret : CType
deriving DecidableEq

structure Scope where
  vars : Std.TreeMap String CType := {}
  fns : Std.TreeMap String Signature := {}
  structs : Std.TreeMap String (List (String × CType)) := {}

namespace Scope

/-- Forget all variables. -/
def enterFunction (s : Scope) : Scope :=
  { s with vars := {} }

def declareVar (s : Scope) (name : String) (t : CType) : Scope :=
  { s with vars := s.vars.insert name t }

def declareFn (s : Scope) (name : String) (sig : Signature) : Scope :=
  { s with fns := s.fns.insert name sig }

def declareStruct (s : Scope) (name : String) (fields : List (String × CType)) : Scope :=
  { s with structs := s.structs.insert name fields }

def var? (s : Scope) (name : String) : Option CType :=
  s.vars[name]?

def fn? (s : Scope) (name : String) : Option Signature :=
  s.fns[name]?

def fields? (s : Scope) (name : String) : Option (List (String × CType)) :=
  s.structs[name]?

/-- The type of the first field of that name. -/
def fieldType? (s : Scope) (struct field : String) : Option CType := do
  let fields ← s.fields? struct
  fields.lookup field

end Scope

end StagedCompiler.Target
