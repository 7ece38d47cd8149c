/-!
Double-precision numbers as their 64 bits, with the exact reading of decimal
literals. Arithmetic is on natural numbers throughout, so a literal's value is
the double nearest to it by construction.
-/

namespace StagedCompiler

/-- A double-precision number, given by its bits: sign, eleven bits of
exponent, fifty-two bits of fraction. -/
structure Double where
  bits : UInt64
deriving DecidableEq, Inhabited

namespace Double

def fractions : Nat := 0x10000000000000

def isNegative (x : Double) : Bool :=
  decide (0x8000000000000000 ≤ x.bits.toNat)

/-- The exponent field, from 0 to 2047. -/
def exponentField (x : Double) : Nat :=
  x.bits.toNat / fractions % 2048

def fractionField (x : Double) : Nat :=
  x.bits.toNat % fractions

def isFinite (x : Double) : Bool :=
  decide (x.exponentField ≠ 2047)

def isNaN (x : Double) : Bool :=
  decide (x.exponentField = 2047 ∧ x.fractionField ≠ 0)

/-- The integer `m` for which a finite number is `m * 2 ^ scale` up to sign. -/
def mantissa (x : Double) : Nat :=
  if x.exponentField = 0 then x.fractionField else fractions + x.fractionField

def scale (x : Double) : Int :=
  if x.exponentField = 0 then -1074 else (x.exponentField : Int) - 1075

def infinity : Double := ⟨0x7FF0000000000000⟩

/-- The quotient `num / den` rounded to the nearest integer, a half to the even
neighbour. -/
def roundDiv (num den : Nat) : Nat :=
  let quotient := num / den
  let rest := 2 * (num % den)
  if rest < den ∨ rest = den ∧ quotient % 2 = 0 then quotient else quotient + 1

/-- The power of two `e` with `2 ^ e ≤ num / den < 2 ^ (e + 1)`. -/
def binaryMagnitude (num den : Nat) : Int :=
  let guess : Int := (num.log2 : Int) - den.log2
  let reached :=
    if 0 ≤ guess then den * Nat.pow 2 guess.toNat ≤ num
    else den ≤ num * Nat.pow 2 (-guess).toNat
  if reached then guess else guess - 1

/-- How often `2 ^ scale` goes into `num / den`, rounded. -/
def roundAt (num den : Nat) (scale : Int) : Nat :=
  if 0 ≤ scale then roundDiv num (den * Nat.pow 2 scale.toNat)
  else roundDiv (num * Nat.pow 2 (-scale).toNat) den

/-- The double nearest to the positive number `num / den`, or infinity if it
is too large. The bits of a non-negative double are its mantissa counted on
from `2 ^ 52` times its exponent, so a mantissa that rounds up to `2 ^ 53`
carries into the exponent by itself. -/
def ofRatio (num den : Nat) : Double :=
  let scale := max (binaryMagnitude num den - 52) (-1074)
  let bits := (scale + 1074).toNat * fractions + roundAt num den scale
  if bits < infinity.bits.toNat then ⟨bits.toUInt64⟩ else infinity

/-- The double nearest to `digits * 10 ^ exponent`, where `digits` has at most
`count` decimal digits. Numbers beyond every finite double, or nearer to zero
than half of the least one, are settled by their size alone. -/
def ofDecimal (digits count : Nat) (exponent : Int) : Double :=
  if digits = 0 then ⟨0⟩
  else if (count : Int) + exponent < -330 then ⟨0⟩
  else if 0 ≤ exponent then
    if exponent > 330 then infinity else ofRatio (digits * Nat.pow 10 exponent.toNat) 1
  else ofRatio digits (Nat.pow 10 (-exponent).toNat)

end Double

end StagedCompiler
