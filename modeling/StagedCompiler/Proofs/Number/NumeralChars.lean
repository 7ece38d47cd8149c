import Mathlib.Tactic.SplitIfs
import StagedCompiler.Decimal.Layout

/-!
Which characters numbers are written with.
-/

namespace StagedCompiler.Decimal

def isNumeric (c : Char) : Bool :=
  c.isDigit || c == '.' || c == '-' || c == '+' || c == 'e'

/-- A text of digits, points, signs and exponent marks only. -/
def Numeric (text : String) : Prop :=
  ∀ c ∈ text.toList, isNumeric c = true

instance (text : String) : Decidable (Numeric text) :=
  List.decidableBAll _ text.toList

@[simp]
theorem numeric_append {text more : String} :
    Numeric (text ++ more) ↔ Numeric text ∧ Numeric more := by
  simp [Numeric, or_imp, forall_and]

theorem numeric_of_digits {digits : List Char} (h : ∀ c ∈ digits, c.isDigit = true) :
    Numeric (String.ofList digits) := by
  intro c hc
  rw [String.toList_ofList] at hc
  simp [isNumeric, h c hc]

theorem isDigit_toDigits {n : Nat} {c : Char} (h : c ∈ Nat.toDigits 10 n) : c.isDigit = true :=
  Nat.isDigit_of_mem_toDigits (by decide) (by decide) h

theorem numeric_toString_nat (n : Nat) : Numeric (toString n) := by
  rw [Nat.toString_eq_ofList_toDigits]
  exact numeric_of_digits fun _ => isDigit_toDigits

theorem numeric_toString_int (v : Int) : Numeric (toString v) := by
  cases v with
  | ofNat n => exact numeric_toString_nat n
  | negSucc n =>
    change Numeric ("-" ++ toString (n + 1))
    rw [numeric_append]
    exact ⟨by decide, numeric_toString_nat _⟩

theorem numeric_zeros (n : Nat) : Numeric (zeros n) := by
  apply numeric_of_digits
  simp +contextual

namespace Layout

variable {l : Layout} {digits : List Char}

theorem numeric_plain (h : ∀ c ∈ digits, c.isDigit = true) (top : Int) :
    Numeric (l.plain digits top) := by
  have htake (n : Nat) : Numeric (String.ofList (digits.take n)) :=
    numeric_of_digits fun c hc => h c (List.mem_of_mem_take hc)
  have hdrop (n : Nat) : Numeric (String.ofList (digits.drop n)) :=
    numeric_of_digits fun c hc => h c (List.mem_of_mem_drop hc)
  have hpoint : Numeric "0." ∧ Numeric ".0" ∧ Numeric "." := by decide
  unfold plain
  dsimp only
  split_ifs
  · simp [hpoint, numeric_zeros, numeric_of_digits h]
  · simp [hpoint, numeric_zeros, htake]
  · simp [numeric_zeros, htake]
  · simp [hpoint, numeric_zeros, htake, hdrop]

theorem numeric_scientific (h : ∀ c ∈ digits, c.isDigit = true) (top : Int) :
    Numeric (l.scientific digits top) := by
  have hfirst : Numeric (String.ofList (digits.take 1)) :=
    numeric_of_digits fun c hc => h c (List.mem_of_mem_take hc)
  have hrest : Numeric (String.ofList (digits.drop 1)) :=
    numeric_of_digits fun c hc => h c (List.mem_of_mem_drop hc)
  have hmarks : Numeric "" ∧ Numeric "." ∧ Numeric "e" ∧ Numeric "-" ∧ Numeric "+" := by decide
  have hfraction :
      Numeric (if digits.length ≤ 1 then "" else "." ++ String.ofList (digits.drop 1)) := by
    split
    · exact hmarks.1
    · exact numeric_append.mpr ⟨hmarks.2.1, hrest⟩
  have hsign : Numeric (if top < 0 then "-" else if l.plusSign then "+" else "") := by
    split_ifs
    all_goals simp only [hmarks]
  simp only [scientific, numeric_append]
  exact ⟨⟨⟨⟨hfirst, hfraction⟩, hmarks.2.2.1⟩, hsign⟩, numeric_toString_nat _⟩

theorem numeric_magnitude (l : Layout) (x : Double) : Numeric (l.magnitude x) := by
  unfold magnitude
  dsimp only
  split_ifs
  · exact numeric_plain (by simp) _
  · exact numeric_plain (fun _ => isDigit_toDigits) _
  · exact numeric_scientific (fun _ => isDigit_toDigits) _

end Layout

end StagedCompiler.Decimal
