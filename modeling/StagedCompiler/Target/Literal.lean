import StagedCompiler.Decimal.Layout
import StagedCompiler.Text.Utf8

/-!
Literals of the generated C.
-/

namespace StagedCompiler.Target.Literal

def octalDigit (n : Nat) : Char :=
  Char.ofNat (48 + n % 8)

/-- One byte between quotes of the given kind. Bytes outside printable ASCII
are octal escapes, which end after three digits whatever follows. -/
def escape (quote b : UInt8) : List Char :=
  if b = 10 then ['\\', 'n']
  else if b = 13 then ['\\', 'r']
  else if b = 9 then ['\\', 't']
  else if b = 92 then ['\\', '\\']
  else if b = quote then ['\\', Char.ofNat b.toNat]
  else if 32 ≤ b ∧ b ≤ 126 then [Char.ofNat b.toNat]
  else ['\\', octalDigit (b.toNat / 64), octalDigit (b.toNat / 8), octalDigit b.toNat]

def string (text : String) : String :=
  "\"" ++ String.ofList ((Text.bytes text).flatMap (escape 34)) ++ "\""

def char (value : UInt8) : String :=
  "'" ++ String.ofList (escape 39 value) ++ "'"

/-- Floating-point constants always have a point or an exponent, so that C
does not take them for integers. -/
def floatLayout : Decimal.Layout where
  positional top := decide (-4 ≤ top ∧ top < 16)
  wholeMark := true
  plusSign := false
  tie := .up
  notANumber := "NaN"
  infinity := "inf"
  negativeInfinity := "-inf"

end StagedCompiler.Target.Literal
