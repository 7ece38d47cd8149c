import StagedCompiler.Decimal.Shortest

/-!
How the digits of a number are laid out as text. A `Layout` holds the
decisions of one output format; `render` applies them to a double.
-/

namespace StagedCompiler.Decimal

structure Layout where
  /-- The exponents of a first digit for which no exponent is written. -/
  positional : Int → Bool
  /-- A whole number without exponent ends in `.0`. -/
  wholeMark : Bool
  /-- An exponent that is not negative is written with a plus sign. -/
  plusSign : Bool
  tie : Tie
  notANumber : String
  infinity : String
  negativeInfinity : String

def zeros (n : Nat) : String :=
  String.ofList (List.replicate n '0')

/-- Digits around a decimal point: `d.ddd * 10 ^ top` without an exponent. -/
def Layout.plain (l : Layout) (digits : List Char) (top : Int) : String :=
  if top < 0 then "0." ++ zeros ((-top).toNat - 1) ++ String.ofList digits
  else
    let whole := top.toNat + 1
    let shown := String.ofList (digits.take whole) ++ zeros (whole - digits.length)
    if digits.length ≤ whole then (if l.wholeMark then shown ++ ".0" else shown)
    else shown ++ "." ++ String.ofList (digits.drop whole)

/-- One digit, the rest behind a point if there is any, and the exponent. -/
def Layout.scientific (l : Layout) (digits : List Char) (top : Int) : String :=
  let shown := String.ofList (digits.take 1) ++
    (if digits.length ≤ 1 then "" else "." ++ String.ofList (digits.drop 1))
  let sign := if top < 0 then "-" else if l.plusSign then "+" else ""
  shown ++ "e" ++ sign ++ toString top.natAbs

def Layout.magnitude (l : Layout) (x : Double) : String :=
  if x.mantissa = 0 then l.plain ['0'] 0
  else
    let d := shortest l.tie x
    let digits := Nat.toDigits 10 d.digits
    let top := d.exponent + digits.length - 1
    if l.positional top then l.plain digits top else l.scientific digits top

def Layout.render (l : Layout) (x : Double) : String :=
  if x.isNaN then l.notANumber
  else if !x.isFinite then (if x.isNegative then l.negativeInfinity else l.infinity)
  else if x.isNegative then "-" ++ l.magnitude x
  else l.magnitude x

end StagedCompiler.Decimal
