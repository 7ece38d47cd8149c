import StagedCompiler.Json.Reader
import StagedCompiler.Options

/-!
Options from a JSON document. Members that are absent keep their defaults,
unknown ones are passed over, and a known one may stand only once. A record
may also be written as the list of its members in order, the last ones left
out at will; a choice may also be written as an object with that one name and
`null`.
-/

namespace StagedCompiler

namespace Json

def member (name : String) (members : List (Option String × Json)) : Option (Option Json) :=
  match members.filter fun m => m.1 == some name with
  | [] => some none
  | [(_, value)] => some (some value)
  | _ => none

/-- The values of the named members of a record, in the order of the names. -/
def record? (names : List String) : Json → Option (List (Option Json))
  | .object members =>
    if members.all fun m => m.1.isSome then names.mapM fun name => member name members else none
  | .array elems =>
    if elems.length ≤ names.length then
      some (elems.map some ++ List.replicate (names.length - elems.length) none)
    else none
  | _ => none

def choice? : Json → Option String
  | .string text => text
  | .object [(name, .null)] => name
  | _ => none

/-- A whole number below `2 ^ 64`, written in digits alone. -/
def size? : Json → Option Nat
  | .number literal =>
    let digits := literal.toList
    if digits.all isDigit then
      let n := digits.foldl (fun n d => 10 * n + (d.toNat - 48)) 0
      if n < UInt64.size then some n else none
    else none
  | _ => none

end Json

def optional {α : Type} (read : Json → Option α) (fallback : α) : Option Json → Option α
  | none => some fallback
  | some value => read value

def Mode.ofJson? (value : Json) : Option Mode := do
  let name ← value.choice?
  if name = "strict" then some .strict
  else if name = "lenient" then some .lenient
  else none

def SupportForm.ofJson? (value : Json) : Option SupportForm := do
  let name ← value.choice?
  if name = "declarations" then some .declarations
  else if name = "embedded" then some .embedded
  else none

def Limits.ofJson? (value : Json) : Option Limits := do
  let default : Limits := {}
  match ← value.record? ["max_tokens", "max_nodes", "max_children", "max_depth"] with
  | [tokens, nodes, children, depth] =>
    return {
      maxTokens := ← optional Json.size? default.maxTokens tokens
      maxNodes := ← optional Json.size? default.maxNodes nodes
      maxChildren := ← optional Json.size? default.maxChildren children
      maxDepth := ← optional Json.size? default.maxDepth depth }
  | _ => none

def Options.ofJson? (value : Json) : Option Options := do
  match ← value.record? ["mode", "limits", "runtime"] with
  | [mode, limits, support] =>
    return {
      mode := ← optional Mode.ofJson? .lenient mode
      limits := ← optional Limits.ofJson? {} limits
      support := ← optional SupportForm.ofJson? .declarations support }
  | _ => none

def Options.parse? (text : String) : Option Options := do
  Options.ofJson? (← Json.parse? text)

end StagedCompiler
