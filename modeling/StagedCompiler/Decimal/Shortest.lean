import StagedCompiler.Double

/-!
The shortest decimal that reads back as a given double. A double stands for
every real number that rounds to it; of the decimals in that interval, those
with the fewest digits are taken, and of those the one nearest to the double.
-/

namespace StagedCompiler.Decimal

inductive Tie where
  | up
  | toEven
deriving DecidableEq

/-- A positive decimal `digits * 10 ^ exponent`. -/
structure Scaled where
  digits : Nat
  exponent : Int
deriving DecidableEq

def digitCount (n : Nat) : Nat :=
  (Nat.toDigits 10 n).length

/-- The power of ten `e` with `10 ^ e ≤ num / den < 10 ^ (e + 1)`. -/
def magnitude (num den : Nat) : Int :=
  if den ≤ num then (digitCount (num / den) : Int) - 1
  else -(digitCount ((den + num - 1) / num - 1) : Int)

/-- A positive double with the interval of the reals that round to it, over
one denominator: `lo / den` and `hi / den` are its ends. -/
structure Interval where
  num : Nat
  lo : Nat
  hi : Nat
  den : Nat
  /-- The ends round to the double itself. -/
  closed : Bool

/-- The interval of a finite positive double. Below a power of two the
neighbour is half as far away, unless it is the least normal number. -/
def Interval.of (x : Double) : Interval :=
  let m := x.mantissa
  let below := if x.fractionField = 0 ∧ 1 < x.exponentField then 1 else 2
  let scale := x.scale - 2
  let (up, den) :=
    if 0 ≤ scale then (Nat.pow 2 scale.toNat, 1) else (1, Nat.pow 2 (-scale).toNat)
  ⟨4 * m * up, (4 * m - below) * up, (4 * m + 2) * up, den, m % 2 = 0⟩

def Interval.holds (i : Interval) (candidate unit parts : Nat) : Bool :=
  let scaled := candidate * unit * i.den
  if i.closed then decide (i.lo * parts ≤ scaled ∧ scaled ≤ i.hi * parts)
  else decide (i.lo * parts < scaled ∧ scaled < i.hi * parts)

def powerOfTen (exponent : Int) : Nat × Nat :=
  if 0 ≤ exponent then (Nat.pow 10 exponent.toNat, 1) else (1, Nat.pow 10 (-exponent).toNat)

/-- The decimal with the given exponent that is nearest to the double, if one
of the two around it lies in the interval. -/
def Interval.onGrid (i : Interval) (tie : Tie) (exponent : Int) : Option Scaled :=
  let unit := (powerOfTen exponent).1
  let parts := (powerOfTen exponent).2
  let num := i.num * parts
  let den := i.den * unit
  let low := num / den
  let rest := 2 * (num % den)
  let lowFits := i.holds low unit parts && decide (0 < low)
  let highFits := i.holds (low + 1) unit parts
  let preferLow := decide (rest < den ∨ rest = den ∧ tie = .toEven ∧ low % 2 = 0)
  if lowFits && (preferLow || !highFits) then some ⟨low, exponent⟩
  else if highFits then some ⟨low + 1, exponent⟩
  else none

def Interval.search (i : Interval) (tie : Tie) (top : Int) : Nat → Nat → Scaled
  | 0, used => (i.onGrid tie (top + 1 - used)).getD ⟨0, 0⟩
  | fuel + 1, used => (i.onGrid tie (top + 1 - used)).getD (i.search tie top fuel (used + 1))

/-- Digits without trailing zeros, the zeros moved into the exponent. -/
def trim : Nat → Scaled → Scaled
  | 0, d => d
  | fuel + 1, d =>
    if d.digits % 10 = 0 then trim fuel ⟨d.digits / 10, d.exponent + 1⟩ else d

/-- The shortest decimal of a finite positive double. Seventeen digits always
suffice to tell two doubles apart. -/
def shortest (tie : Tie) (x : Double) : Scaled :=
  let i := Interval.of x
  trim 17 (i.search tie (magnitude i.num i.den) 16 1)

end StagedCompiler.Decimal
