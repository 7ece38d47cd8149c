import StagedCompiler.Json.Value

/-!
JSON documents from text. The whole text has to be one document: no comments,
no trailing commas, no leading zeros, nothing behind the value.
-/

namespace StagedCompiler.Json

def isBlank (c : Char) : Bool :=
  c == ' ' || c == '\n' || c == '\t' || c == '\r'

def skipBlanks (cs : List Char) : List Char :=
  cs.dropWhile isBlank

def isDigit (c : Char) : Bool :=
  decide ('0' ≤ c ∧ c ≤ '9')

def digits? (cs : List Char) : Option (List Char × List Char) :=
  let ds := cs.takeWhile isDigit
  if ds.isEmpty then none else some (ds, cs.drop ds.length)

/-- An integer without superfluous zeros. -/
def integer? (cs : List Char) : Option (List Char × List Char) := do
  let (ds, rest) ← digits? cs
  if ds.head? = some '0' ∧ 1 < ds.length then none else some (ds, rest)

def fraction? : List Char → Option (List Char × List Char)
  | '.' :: cs => do
    let (ds, rest) ← digits? cs
    return ('.' :: ds, rest)
  | cs => some ([], cs)

def exponent? : List Char → Option (List Char × List Char)
  | [] => some ([], [])
  | c :: cs =>
    if c = 'e' ∨ c = 'E' then do
      let sign := (cs.take 1).filter fun s => s == '+' || s == '-'
      let (ds, rest) ← digits? (cs.drop sign.length)
      return (c :: sign ++ ds, rest)
    else some ([], c :: cs)

def number? (cs : List Char) : Option (Json × List Char) := do
  let sign := (cs.take 1).filter (· == '-')
  let (whole, rest) ← integer? (cs.drop sign.length)
  let (fraction, rest) ← fraction? rest
  let (exponent, rest) ← exponent? rest
  return (.number (String.ofList (sign ++ whole ++ fraction ++ exponent)), rest)

def hexValue? (c : Char) : Option Nat :=
  if '0' ≤ c ∧ c ≤ '9' then some (c.toNat - 48)
  else if 'a' ≤ c ∧ c ≤ 'f' then some (c.toNat - 87)
  else if 'A' ≤ c ∧ c ≤ 'F' then some (c.toNat - 55)
  else none

def shortEscape? (c : Char) : Option Char :=
  if c = '"' ∨ c = '\\' ∨ c = '/' then some c
  else if c = 'b' then some '\x08'
  else if c = 'f' then some '\x0c'
  else if c = 'n' then some '\n'
  else if c = 'r' then some '\r'
  else if c = 't' then some '\t'
  else none

/-- A quoted text as UTF-16 units or whole characters: from the characters
behind the opening quote, with the units `done` before in reverse. -/
def units? (done : List Nat) : List Char → Option (List Nat × List Char)
  | [] => none
  | '"' :: rest => some (done.reverse, rest)
  | '\\' :: 'u' :: a :: b :: c :: d :: rest => do
    let a ← hexValue? a
    let b ← hexValue? b
    let c ← hexValue? c
    let d ← hexValue? d
    units? ((((a * 16 + b) * 16 + c) * 16 + d) :: done) rest
  | '\\' :: c :: rest => do
    let c ← shortEscape? c
    units? (c.toNat :: done) rest
  | c :: rest => if c.toNat < 32 ∨ c = '\\' then none else units? (c.toNat :: done) rest

/-- The characters of units in which each half of a surrogate pair stands
beside its other half. -/
def charsOfUnits? (done : List Char) : List Nat → Option (List Char)
  | [] => some done.reverse
  | [u] => if 0xD800 ≤ u ∧ u ≤ 0xDFFF then none else some (Char.ofNat u :: done).reverse
  | u :: v :: rest =>
    if 0xD800 ≤ u ∧ u ≤ 0xDBFF then
      if 0xDC00 ≤ v ∧ v ≤ 0xDFFF then
        charsOfUnits? (Char.ofNat ((u - 0xD800) * 1024 + (v - 0xDC00) + 0x10000) :: done) rest
      else none
    else if 0xDC00 ≤ u ∧ u ≤ 0xDFFF then none
    else charsOfUnits? (Char.ofNat u :: done) (v :: rest)

def text? (cs : List Char) : Option (Option String × List Char) := do
  let (units, rest) ← units? [] cs
  return ((charsOfUnits? [] units).map String.ofList, rest)

def literal? (word : String) (value : Json) (cs : List Char) : Option (Json × List Char) :=
  if word.toList.isPrefixOf cs then some (value, cs.drop word.length) else none

mutual

def value? : Nat → List Char → Option (Json × List Char)
  | 0, _ => none
  | _, [] => none
  | fuel + 1, c :: rest =>
    if c = '[' then
      match skipBlanks rest with
      | ']' :: rest => some (.array [], rest)
      | rest => do
        let (x, rest) ← value? fuel rest
        elems? fuel [x] (skipBlanks rest)
    else if c = '\x7b' then
      match skipBlanks rest with
      | '\x7d' :: rest => some (.object [], rest)
      | rest => do
        let (m, rest) ← member? fuel rest
        members? fuel [m] (skipBlanks rest)
    else if c = '"' then do
      let (s, rest) ← text? rest
      return (.string s, rest)
    else if c = 'n' then literal? "null" .null (c :: rest)
    else if c = 't' then literal? "true" (.bool true) (c :: rest)
    else if c = 'f' then literal? "false" (.bool false) (c :: rest)
    else number? (c :: rest)

/-- The rest of an array behind the elements `done`, last one first. -/
def elems? : Nat → List Json → List Char → Option (Json × List Char)
  | _, done, ']' :: rest => some (.array done.reverse, rest)
  | fuel + 1, done, ',' :: rest => do
    let (x, rest) ← value? fuel (skipBlanks rest)
    elems? fuel (x :: done) (skipBlanks rest)
  | _, _, _ => none

def member? : Nat → List Char → Option ((Option String × Json) × List Char)
  | fuel + 1, '"' :: rest => do
    let (name, rest) ← text? rest
    match skipBlanks rest with
    | ':' :: rest =>
      let (x, rest) ← value? fuel (skipBlanks rest)
      return ((name, x), rest)
    | _ => none
  | _, _ => none

/-- The rest of an object behind the members `done`, last one first. -/
def members? : Nat → List (Option String × Json) → List Char → Option (Json × List Char)
  | _, done, '\x7d' :: rest => some (.object done.reverse, rest)
  | fuel + 1, done, ',' :: rest => do
    let (m, rest) ← member? fuel (skipBlanks rest)
    members? fuel (m :: done) (skipBlanks rest)
  | _, _, _ => none

end

/-- The document that a text holds. Every level of nesting and every element
takes a character, so twice their number bounds the steps. -/
def parse? (text : String) : Option Json := do
  let cs := skipBlanks text.toList
  let (v, rest) ← value? (2 * cs.length + 2) cs
  if (skipBlanks rest).isEmpty then some v else none

end StagedCompiler.Json
