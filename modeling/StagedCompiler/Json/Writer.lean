import StagedCompiler.Json.Value

/-!
JSON documents as text, a value to a line, indented by two blanks a level.
-/

namespace StagedCompiler.Json

def hexDigit (n : Nat) : Char :=
  if n < 10 then Char.ofNat (48 + n) else Char.ofNat (87 + n)

/-- One character of a quoted text. Only quotes, backslashes and controls are
escaped. -/
def escape (c : Char) : List Char :=
  if c = '"' then ['\\', '"']
  else if c = '\\' then ['\\', '\\']
  else if c = '\x08' then ['\\', 'b']
  else if c = '\x0c' then ['\\', 'f']
  else if c = '\n' then ['\\', 'n']
  else if c = '\r' then ['\\', 'r']
  else if c = '\t' then ['\\', 't']
  else if c.toNat < 32 then ['\\', 'u', '0', '0', hexDigit (c.toNat / 16), hexDigit (c.toNat % 16)]
  else [c]

def quote (s : String) : String :=
  "\"" ++ String.ofList (s.toList.flatMap escape) ++ "\""

def quote? : Option String → String
  | some s => quote s
  | none => "null"

def newline (depth : Nat) : String :=
  "\n" ++ String.ofList (List.replicate (2 * depth) ' ')

mutual

/-- The pieces of a value behind those that are `done`. -/
def pieces (depth : Nat) (done : Array String) : Json → Array String
  | .null => done.push "null"
  | .bool value => done.push (if value then "true" else "false")
  | .number literal => done.push literal
  | .string text => done.push (quote? text)
  | .array [] => done.push "[]"
  | .array (x :: xs) =>
    let first := pieces (depth + 1) ((done.push "[").push (newline (depth + 1))) x
    ((elemPieces (depth + 1) first xs).push (newline depth)).push "]"
  | .object [] => done.push "\x7b\x7d"
  | .object ((name, value) :: members) =>
    let opened := ((done.push "\x7b").push (newline (depth + 1))).push (quote? name ++ ": ")
    let first := pieces (depth + 1) opened value
    ((memberPieces (depth + 1) first members).push (newline depth)).push "\x7d"

def elemPieces (depth : Nat) (done : Array String) : List Json → Array String
  | [] => done
  | x :: xs => elemPieces depth (pieces depth ((done.push ",").push (newline depth)) x) xs

def memberPieces (depth : Nat) (done : Array String) :
    List (Option String × Json) → Array String
  | [] => done
  | (name, value) :: members =>
    let opened := ((done.push ",").push (newline depth)).push (quote? name ++ ": ")
    memberPieces depth (pieces depth opened value) members

end

def pretty (value : Json) : String :=
  String.join (pieces 0 #[] value).toList

end StagedCompiler.Json
