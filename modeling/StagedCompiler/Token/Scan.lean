import StagedCompiler.Token.Basic

/-!
What stands at the front of a byte sequence. `Piece.atFront?` cuts off the
longest blank run, comment, literal, word or punctuation there, or the single
character that belongs to none of them. Every piece holds at least one byte.
-/

namespace StagedCompiler

namespace Byte

def isDigit (b : UInt8) : Bool :=
  decide (48 ≤ b ∧ b ≤ 57)

def isLetter (b : UInt8) : Bool :=
  decide (65 ≤ b ∧ b ≤ 90 ∨ 97 ≤ b ∧ b ≤ 122)

def isWordStart (b : UInt8) : Bool :=
  isLetter b || b == 95

def isWordPart (b : UInt8) : Bool :=
  isWordStart b || isDigit b

/-- Blank, tab, line feed, form feed, carriage return. -/
def isBlank (b : UInt8) : Bool :=
  b == 32 || b == 9 || b == 10 || b == 12 || b == 13

/-- What a byte after a backslash stands for; one without a meaning of its own
stands for itself. -/
def unescape (b : UInt8) : UInt8 :=
  if b = 110 then 10
  else if b = 114 then 13
  else if b = 116 then 9
  else if b = 48 then 0
  else b

def decimal (digits : List UInt8) : Nat :=
  digits.foldl (fun n d => 10 * n + (d.toNat - 48)) 0

end Byte

/-- A number literal in its parts. A part that is absent is empty. -/
structure Numeral where
  whole : List UInt8
  fraction : List UInt8
  /-- The letter of an exponent and its sign, if it has one. -/
  mark : List UInt8
  exponent : List UInt8
deriving DecidableEq

namespace Numeral

/-- The digits behind a decimal point. A point without a digit after it is no
fraction, so `0..5` stays a range. -/
def fractionOf : List UInt8 → List UInt8
  | [] => []
  | b :: rest => if b = 46 then rest.takeWhile Byte.isDigit else []

/-- The mark and digits of an exponent, both empty unless a digit follows. -/
def exponentOf : List UInt8 → List UInt8 × List UInt8
  | [] => ([], [])
  | b :: rest =>
    if b = 101 ∨ b = 69 then
      let sign := (rest.take 1).filter fun s => s == 43 || s == 45
      let digits := (rest.drop sign.length).takeWhile Byte.isDigit
      if digits.isEmpty then ([], []) else (b :: sign, digits)
    else ([], [])

def fractionLength (fraction : List UInt8) : Nat :=
  if fraction.isEmpty then 0 else fraction.length + 1

/-- The literal at the front of bytes that start with a digit. -/
def scan (bytes : List UInt8) : Numeral :=
  let whole := bytes.takeWhile Byte.isDigit
  let afterWhole := bytes.drop whole.length
  let fraction := fractionOf afterWhole
  let (mark, exponent) := exponentOf (afterWhole.drop (fractionLength fraction))
  ⟨whole, fraction, mark, exponent⟩

def length (n : Numeral) : Nat :=
  n.whole.length + fractionLength n.fraction + n.mark.length + n.exponent.length

def isFloat (n : Numeral) : Bool :=
  !n.fraction.isEmpty || !n.exponent.isEmpty

/-- The value of a literal without fraction and exponent, if it is below
`2 ^ 63`. -/
def toInt? (n : Numeral) : Option Int :=
  let digits := n.whole.dropWhile (· == 48)
  if digits.length ≤ 19 then
    let value := Byte.decimal digits
    if value < 0x8000000000000000 then some value else none
  else none

/-- The size of the exponent. Digits that follow once it has passed `2 ^ 16`
are ignored: no literal of reasonable length is finite there. -/
def exponentSize (digits : List UInt8) : Nat :=
  digits.foldl (fun n d => if n < 65536 then 10 * n + (d.toNat - 48) else n) 0

def toDouble (n : Numeral) : Double :=
  let digits := n.whole ++ n.fraction
  let size : Int := exponentSize n.exponent
  let exponent := if n.mark.contains 45 then -size else size
  Double.ofDecimal (Byte.decimal digits) digits.length (exponent - n.fraction.length)

end Numeral

inductive LexFault where
  | openComment
  | openString
  | openChar
  | emptyChar
  | hugeInt (digits : List UInt8)
  | strayChar (c : Char)
  /-- A byte inside a character whose first part was read before. -/
  | strayByte (b : UInt8)
deriving DecidableEq

def LexFault.message : LexFault → String
  | openComment => "unterminated block comment"
  | openString => "unterminated string literal"
  | openChar => "unterminated char literal"
  | emptyChar => "empty char literal"
  | hugeInt digits => "integer literal out of range: " ++ Text.ofLatin1 digits
  | strayChar c => "unexpected character '" ++ c.toString ++ "'"
  | strayByte b => "unexpected byte 0x" ++ String.ofList (Nat.toDigits 16 b.toNat)

inductive Piece where
  | blank (length : Nat)
  | lineComment (length : Nat)
  | blockComment (length : Nat) (closed : Bool)
  | numeral (literal : Numeral)
  | word (lexeme : List UInt8)
  | string (length : Nat) (content : List UInt8) (closed : Bool)
  | char (length : Nat) (value : UInt8) (fault : Option LexFault)
  | punct (mark : Punct)
  | strayChar (c : Char)
  | strayByte (b : UInt8)
deriving DecidableEq

namespace Piece

/-- The bytes up to and including the first `*/`, or all of them and `false`.
`seen` bytes went before. -/
def blockEnd (seen : Nat) : List UInt8 → Nat × Bool
  | [] => (seen, false)
  | b :: rest =>
    if b = 42 ∧ rest.head? = some 47 then (seen + 2, true) else blockEnd (seen + 1) rest

/-- The rest of a string literal: its length with the `seen` bytes before, its
content with the bytes `done` before in reverse, and whether it is closed. A
backslash at the end of the source stands for nothing. -/
def stringEnd (seen : Nat) (done : List UInt8) : List UInt8 → Nat × List UInt8 × Bool
  | [] => (seen, done.reverse, false)
  | [b] =>
    if b = 34 then (seen + 1, done.reverse, true)
    else if b = 92 then (seen + 1, done.reverse, false)
    else (seen + 1, (b :: done).reverse, false)
  | b :: e :: rest =>
    if b = 34 then (seen + 1, done.reverse, true)
    else if b = 92 then stringEnd (seen + 2) (Byte.unescape e :: done) rest
    else stringEnd (seen + 1) (b :: done) (e :: rest)

/-- A char literal whose value takes `taken` bytes with the opening quote. -/
def charEnd (taken : Nat) (value : UInt8) (rest : List UInt8) : Piece :=
  if rest.head? = some 39 then char (taken + 1) value none
  else char taken value (some .openChar)

/-- A char literal, from the bytes behind its opening quote. It holds one
byte, and it never runs past the end of a line. -/
def charLiteral : List UInt8 → Piece
  | [] => char 1 0 (some .openChar)
  | b :: rest =>
    if b = 10 then char 1 0 (some .openChar)
    else if b = 39 then char 2 0 (some .emptyChar)
    else if b = 92 then
      match rest with
      | [] => char 2 0 (some .openChar)
      | e :: rest => charEnd 3 (Byte.unescape e) rest
    else charEnd 2 b rest

/-- The piece at the front of the bytes, unless there are none. -/
def atFront? : List UInt8 → Option Piece
  | [] => none
  | b :: rest =>
    if Byte.isBlank b then some (blank ((b :: rest).takeWhile Byte.isBlank).length)
    else if b = 47 ∧ rest.head? = some 47 then
      some (lineComment ((b :: rest).takeWhile (· != 10)).length)
    else if b = 47 ∧ rest.head? = some 42 then
      let (length, closed) := blockEnd 2 (rest.drop 1)
      some (blockComment length closed)
    else if Byte.isDigit b then some (numeral (Numeral.scan (b :: rest)))
    else if Byte.isWordStart b then some (word ((b :: rest).takeWhile Byte.isWordPart))
    else if b = 34 then
      let (length, content, closed) := stringEnd 1 [] rest
      some (string length content closed)
    else if b = 39 then some (charLiteral rest)
    else
      match Punct.atFront? (b :: rest) with
      | some mark => some (punct mark)
      | none =>
        match Text.firstChar? (b :: rest) with
        | some c => some (strayChar c)
        | none => some (strayByte b)

def length : Piece → Nat
  | blank n => n
  | lineComment n => n
  | blockComment n _ => n
  | numeral literal => literal.length
  | word lexeme => lexeme.length
  | string n _ _ => n
  | char n _ _ => n
  | punct mark => (Text.bytes mark.spelling).length
  | strayChar c => c.utf8Size
  | strayByte _ => 1

/-- Where a reader stands behind a piece. A stray character takes one column
however many bytes it has. -/
def advance (p : Piece) (here : Position) (bytes : List UInt8) : Position :=
  match p with
  | strayChar _ | strayByte _ => here.skipChar p.length
  | _ => here.advance (bytes.take p.length)

def fault? : Piece → Option LexFault
  | blockComment _ false => some .openComment
  | numeral literal =>
    if literal.isFloat then none
    else if literal.toInt?.isSome then none
    else some (.hugeInt literal.whole)
  | string _ _ false => some .openString
  | char _ _ fault => fault
  | strayChar c => some (.strayChar c)
  | strayByte b => some (.strayByte b)
  | _ => none

/-- The token that a piece makes, with the table of names after it. Blanks,
comments and stray characters make none. -/
def token (names : Interner) : Piece → Option TokenKind × Interner
  | numeral literal =>
    if literal.isFloat then (some (.float literal.toDouble), names)
    else (some (.int (literal.toInt?.getD 0)), names)
  | word lexeme =>
    let text := Text.ofLatin1 lexeme
    match Keyword.ofWord? text with
    | some reserved => (some (.keyword reserved), names)
    | none =>
      let (sym, names) := names.intern text
      (some (.ident sym), names)
  | string _ content _ =>
    let (sym, names) := names.intern (Text.ofBytes content)
    (some (.str sym), names)
  | char _ value _ => (some (.char value), names)
  | punct mark => (some (.punct mark), names)
  | blank _ | lineComment _ | blockComment .. | strayChar _ | strayByte _ => (none, names)

inductive Gives (names : Interner) : Piece → TokenKind → Interner → Prop
  | float (literal : Numeral) : Gives names (numeral literal) (.float literal.toDouble) names
  | int (literal : Numeral) : Gives names (numeral literal) (.int (literal.toInt?.getD 0)) names
  | keyword (lexeme : List UInt8) (reserved : Keyword) :
      Gives names (word lexeme) (.keyword reserved) names
  | ident (lexeme : List UInt8) : Gives names (word lexeme)
      (.ident (names.intern (Text.ofLatin1 lexeme)).1) (names.intern (Text.ofLatin1 lexeme)).2
  | str (length : Nat) (content : List UInt8) (closed : Bool) :
      Gives names (string length content closed) (.str (names.intern (Text.ofBytes content)).1)
        (names.intern (Text.ofBytes content)).2
  | char (length : Nat) (value : UInt8) (fault : Option LexFault) :
      Gives names (char length value fault) (.char value) names
  | punct (mark : Punct) : Gives names (punct mark) (.punct mark) names

/-- Which pieces make tokens, and of which kind. -/
theorem gives {p : Piece} {names names' : Interner} {kind : TokenKind}
    (h : p.token names = (some kind, names')) : p.Gives names kind names' := by
  cases p with
  | numeral literal =>
    simp only [token] at h
    split at h
    · cases h
      exact .float literal
    · cases h
      exact .int literal
  | word lexeme =>
    simp only [token] at h
    split at h
    · cases h
      exact .keyword lexeme _
    · cases h
      exact .ident lexeme
  | string _ _ _ | char _ _ _ | punct _ =>
    cases h
    constructor
  | blank _ | lineComment _ | blockComment _ _ | strayChar _ | strayByte _ => cases h

theorem gives_fst {p : Piece} {names : Interner} {kind : TokenKind}
    (h : (p.token names).1 = some kind) : ∃ names', p.Gives names kind names' :=
  ⟨_, gives (Prod.ext h rfl)⟩

end Piece

end StagedCompiler
