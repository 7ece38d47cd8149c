/-!
JSON documents.
-/

namespace StagedCompiler

inductive Json where
  | null
  | bool (value : Bool)
  /-- A number as it is spelled. -/
  | number (literal : String)
  /-- A text; escapes that leave half of a surrogate pair spell none. -/
  | string (text : Option String)
  | array (elems : List Json)
  /-- Members in the order of the document, repeated names included. -/
  | object (members : List (Option String × Json))

namespace Json

def text (s : String) : Json :=
  string (some s)

def nat (n : Nat) : Json :=
  number (toString n)

def ofOption {α : Type} (f : α → Json) : Option α → Json
  | some x => f x
  | none => null

def ofList {α : Type} (f : α → Json) (xs : List α) : Json :=
  array (xs.map f)

def struct (members : List (String × Json)) : Json :=
  object (members.map fun (name, value) => (some name, value))

end Json

end StagedCompiler
