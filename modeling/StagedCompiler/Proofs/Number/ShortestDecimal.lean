import Mathlib.Data.Nat.Cast.Order.Field
import StagedCompiler.Decimal.Shortest
import StagedCompiler.Proofs.Number.NearestDouble

/-!
The shortest decimal of a double is nearest to it, so it is read back as that
double. The search for it ends: with seventeen digits one of the two decimals
around a double is always nearer to it than half of the way to a neighbour.
-/

namespace StagedCompiler.Decimal

open Double (Nearest)

/-! ### The interval of a double -/

section

variable {x : Double}

/-- The number that a finite double is, up to its sign. -/
def size (x : Double) : ℚ :=
  x.mantissa * 2 ^ x.scale

/-- The factor and the denominator that the bounds of the interval share. -/
theorem interval_parts (x : Double) :
    ∃ up : Nat, 0 < (Interval.of x).den ∧ (up : ℚ) / (Interval.of x).den = 2 ^ (x.scale - 2) ∧
      (Interval.of x).num = 4 * x.mantissa * up ∧
      (Interval.of x).lo =
        (4 * x.mantissa - if x.fractionField = 0 ∧ 1 < x.exponentField then 1 else 2) * up ∧
      (Interval.of x).hi = (4 * x.mantissa + 2) * up := by
  by_cases hscale : 0 ≤ x.scale - 2
  · refine ⟨Nat.pow 2 (x.scale - 2).toNat, ?_⟩
    simp only [Interval.of, if_pos hscale]
    rw [Double.cast_pow_toNat 2 hscale]
    simp
  · refine ⟨1, ?_⟩
    simp only [Interval.of, if_neg hscale]
    rw [Double.cast_pow_neg_toNat 2 hscale]
    simp

theorem den_pos (x : Double) : (0 : ℚ) < (Interval.of x).den := by
  obtain ⟨up, hden, -⟩ := interval_parts x
  exact_mod_cast hden

theorem quarter_scale (x : Double) : (2 : ℚ) ^ (x.scale - 2) = 2 ^ x.scale / 4 := by
  rw [zpow_sub₀ (by norm_num)]
  norm_num

theorem num_eq (x : Double) : ((Interval.of x).num : ℚ) = size x * (Interval.of x).den := by
  obtain ⟨up, hden, hup, hnum, -, -⟩ := interval_parts x
  have hpos := den_pos x
  rw [div_eq_iff hpos.ne', quarter_scale] at hup
  rw [hnum, size]
  push_cast
  rw [hup]
  ring

/-- The upper end lies half a unit above the double. -/
theorem hi_eq (x : Double) :
    ((Interval.of x).hi : ℚ) =
      ((x.mantissa : ℚ) + 1 / 2) * 2 ^ x.scale * (Interval.of x).den := by
  obtain ⟨up, hden, hup, -, -, hhi⟩ := interval_parts x
  have hpos := den_pos x
  rw [div_eq_iff hpos.ne', quarter_scale] at hup
  rw [hhi]
  push_cast
  rw [hup]
  ring

/-- The lower end lies half a gap below the double. -/
theorem lo_eq (hpos : x.mantissa ≠ 0) :
    ((Interval.of x).lo : ℚ) =
      ((x.mantissa : ℚ) - x.below) * 2 ^ x.scale * (Interval.of x).den := by
  obtain ⟨up, hden, hup, -, hlo, -⟩ := interval_parts x
  have hden := den_pos x
  rw [div_eq_iff hden.ne', quarter_scale] at hup
  rw [hlo, Double.below]
  split_ifs
  · rw [Nat.cast_mul, Nat.cast_sub (by omega), hup]
    push_cast
    ring
  · rw [Nat.cast_mul, Nat.cast_sub (by omega), hup]
    push_cast
    ring

theorem closed_eq (x : Double) : (Interval.of x).closed = decide (x.mantissa % 2 = 0) := by
  rw [Interval.of]

/-- A multiple of a unit lies in the interval just if it lies between its bounds
as a number. -/
theorem holds_iff {candidate unit parts : Nat} (hpos : x.mantissa ≠ 0) (hparts : 0 < parts) :
    (Interval.of x).holds candidate unit parts = true ↔
      if x.mantissa % 2 = 0 then
        ((x.mantissa : ℚ) - x.below) * 2 ^ x.scale ≤ candidate * ((unit : ℚ) / parts) ∧
          candidate * ((unit : ℚ) / parts) ≤ ((x.mantissa : ℚ) + 1 / 2) * 2 ^ x.scale
      else
        ((x.mantissa : ℚ) - x.below) * 2 ^ x.scale < candidate * ((unit : ℚ) / parts) ∧
          candidate * ((unit : ℚ) / parts) < ((x.mantissa : ℚ) + 1 / 2) * 2 ^ x.scale := by
  have hparts : (0 : ℚ) < parts := by exact_mod_cast hparts
  have hden := den_pos x
  have hfactor : (0 : ℚ) < (Interval.of x).den * parts := mul_pos hden hparts
  -- Both sides of each comparison carry the same denominators.
  have hlo : (((Interval.of x).lo * parts : Nat) : ℚ) =
      ((x.mantissa : ℚ) - x.below) * 2 ^ x.scale * ((Interval.of x).den * parts) := by
    rw [Nat.cast_mul, lo_eq hpos, mul_assoc]
  have hhi : (((Interval.of x).hi * parts : Nat) : ℚ) =
      ((x.mantissa : ℚ) + 1 / 2) * 2 ^ x.scale * ((Interval.of x).den * parts) := by
    rw [Nat.cast_mul, hi_eq, mul_assoc]
  have hscaled : ((candidate * unit * (Interval.of x).den : Nat) : ℚ) =
      candidate * ((unit : ℚ) / parts) * ((Interval.of x).den * parts) := by
    push_cast
    field_simp
  rw [Interval.holds, closed_eq]
  by_cases heven : x.mantissa % 2 = 0
  · simp only [heven, decide_true, if_true, decide_eq_true_eq]
    rw [← Nat.cast_le (α := ℚ), ← Nat.cast_le (α := ℚ), hlo, hhi, hscaled,
      mul_le_mul_iff_left₀ hfactor, mul_le_mul_iff_left₀ hfactor]
  · simp only [heven, decide_false, if_false, Bool.false_eq_true, decide_eq_true_eq]
    rw [← Nat.cast_lt (α := ℚ), ← Nat.cast_lt (α := ℚ), hlo, hhi, hscaled,
      mul_lt_mul_iff_left₀ hfactor, mul_lt_mul_iff_left₀ hfactor]

theorem nearest_of_holds {candidate unit parts : Nat} (hpos : x.mantissa ≠ 0) (hparts : 0 < parts)
    (h : (Interval.of x).holds candidate unit parts = true) :
    Nearest (candidate * ((unit : ℚ) / parts)) x := by
  rw [holds_iff hpos hparts] at h
  split_ifs at h with heven
  · exact ⟨h.1, h.2, fun hodd => by omega⟩
  · exact ⟨h.1.le, h.2.le, fun _ => h⟩

theorem holds_of_inside {candidate unit parts : Nat} (hpos : x.mantissa ≠ 0) (hparts : 0 < parts)
    (hlow : ((x.mantissa : ℚ) - x.below) * 2 ^ x.scale < candidate * ((unit : ℚ) / parts))
    (hhigh : candidate * ((unit : ℚ) / parts) < ((x.mantissa : ℚ) + 1 / 2) * 2 ^ x.scale) :
    (Interval.of x).holds candidate unit parts = true := by
  rw [holds_iff hpos hparts]
  split_ifs
  · exact ⟨hlow.le, hhigh.le⟩
  · exact ⟨hlow, hhigh⟩

end

/-! ### One grid -/

section

variable {x : Double}

theorem powerOfTen_pos (exponent : Int) :
    0 < (powerOfTen exponent).1 ∧ 0 < (powerOfTen exponent).2 := by
  have hpow (n : Nat) : 0 < Nat.pow 10 n := Nat.pow_pos (by decide)
  rw [powerOfTen]
  by_cases h : 0 ≤ exponent
  · rw [if_pos h]
    exact ⟨hpow _, Nat.one_pos⟩
  · rw [if_neg h]
    exact ⟨Nat.one_pos, hpow _⟩

theorem powerOfTen_eq (exponent : Int) :
    ((powerOfTen exponent).1 : ℚ) / (powerOfTen exponent).2 = 10 ^ exponent := by
  rw [powerOfTen]
  by_cases h : 0 ≤ exponent
  · simp only [if_pos h]
    rw [Double.cast_pow_toNat 10 h]
    simp
  · simp only [if_neg h]
    rw [Double.cast_pow_neg_toNat 10 h]
    simp

/-- A hit on a grid is a positive decimal that is nearest to the double. -/
theorem onGrid_nearest (hpos : x.mantissa ≠ 0) {tie : Tie} {exponent : Int} {d : Scaled}
    (h : (Interval.of x).onGrid tie exponent = some d) :
    0 < d.digits ∧ Nearest (d.digits * 10 ^ d.exponent) x := by
  obtain ⟨-, hparts⟩ := powerOfTen_pos exponent
  have hnearest {candidate : Nat}
      (hholds : (Interval.of x).holds candidate (powerOfTen exponent).1 (powerOfTen exponent).2) :
      Nearest (candidate * 10 ^ exponent) x := by
    rw [← powerOfTen_eq]
    exact nearest_of_holds hpos hparts hholds
  rw [Interval.onGrid] at h
  split_ifs at h with hlow hhigh
  · cases h
    simp only [Bool.and_eq_true, decide_eq_true_eq] at hlow
    exact ⟨hlow.1.2, hnearest hlow.1.1⟩
  · cases h
    exact ⟨Nat.succ_pos _, hnearest hhigh⟩

/-- The way to the next border, as part of the double itself. -/
theorem size_le (x : Double) : size x ≤ x.below * 2 ^ x.scale * 18014398509481984 := by
  have hunit : (0 : ℚ) < 2 ^ x.scale := by positivity
  have hmantissa : (x.mantissa : ℚ) ≤ x.below * 18014398509481984 := by
    rw [Double.below]
    split_ifs with h
    · have heq : x.mantissa = 4503599627370496 := by
        rw [Double.mantissa, if_neg (by omega), h.1, Double.fractions]
      rw [heq]
      norm_num
    · have hlt : (x.mantissa : ℚ) < 9007199254740992 := by exact_mod_cast Double.mantissa_lt x
      linarith
  rw [size]
  nlinarith

/-- The double lies between two neighbours on every grid. -/
theorem grid_around (x : Double) (exponent : Int) {low : Nat}
    (hlow : (Interval.of x).num * (powerOfTen exponent).2 /
      ((Interval.of x).den * (powerOfTen exponent).1) = low) :
    (low : ℚ) * 10 ^ exponent ≤ size x ∧ size x < ((low : ℚ) + 1) * 10 ^ exponent := by
  obtain ⟨hunit, hparts⟩ := powerOfTen_pos exponent
  have hunit' : (0 : ℚ) < (powerOfTen exponent).1 := by exact_mod_cast hunit
  have hparts' : (0 : ℚ) < (powerOfTen exponent).2 := by exact_mod_cast hparts
  have hden := den_pos x
  have hdiv := Nat.div_add_mod ((Interval.of x).num * (powerOfTen exponent).2)
    ((Interval.of x).den * (powerOfTen exponent).1)
  have hmod := Nat.mod_lt ((Interval.of x).num * (powerOfTen exponent).2)
    (Nat.mul_pos (by exact_mod_cast hden) hunit)
  rw [hlow] at hdiv
  generalize (Interval.of x).num * (powerOfTen exponent).2 %
    ((Interval.of x).den * (powerOfTen exponent).1) = rest at hdiv hmod
  have hdiv : ((Interval.of x).den * (powerOfTen exponent).1 * low + rest : ℚ) =
      size x * (Interval.of x).den * (powerOfTen exponent).2 := by
    rw [← num_eq]
    exact_mod_cast hdiv
  have hmod : (rest : ℚ) < (Interval.of x).den * (powerOfTen exponent).1 := by exact_mod_cast hmod
  have hrest : (0 : ℚ) ≤ rest := Nat.cast_nonneg rest
  rw [← powerOfTen_eq, ← mul_div_assoc, ← mul_div_assoc, div_le_iff₀ hparts', lt_div_iff₀ hparts']
  constructor
  · have hmul : (Interval.of x).den * (low * (powerOfTen exponent).1 : ℚ) ≤
        (Interval.of x).den * (size x * (powerOfTen exponent).2) := by nlinarith
    exact le_of_mul_le_mul_left hmul hden
  · have hmul : (Interval.of x).den * (size x * (powerOfTen exponent).2) <
        (Interval.of x).den * ((low + 1) * (powerOfTen exponent).1 : ℚ) := by nlinarith
    exact lt_of_mul_lt_mul_left hmul hden.le

/-- On a grid so fine that the double has seventeen digits there is a hit. -/
theorem onGrid_isSome (hpos : x.mantissa ≠ 0) (tie : Tie) {exponent : Int}
    (hfine : 10000000000000000 * (10 : ℚ) ^ exponent ≤ size x) :
    ((Interval.of x).onGrid tie exponent).isSome = true := by
  obtain ⟨-, hparts⟩ := powerOfTen_pos exponent
  have hscale : (0 : ℚ) < 2 ^ x.scale := by positivity
  have hunit : (0 : ℚ) < 10 ^ exponent := by positivity
  have hbelow := Double.below_le x
  have hwidth := size_le x
  have hinside {candidate : Nat}
      (hlow : ((x.mantissa : ℚ) - x.below) * 2 ^ x.scale < candidate * 10 ^ exponent)
      (hhigh : candidate * 10 ^ exponent < ((x.mantissa : ℚ) + 1 / 2) * 2 ^ x.scale) :
      (Interval.of x).holds candidate (powerOfTen exponent).1 (powerOfTen exponent).2 = true := by
    rw [← powerOfTen_eq] at hlow hhigh
    exact holds_of_inside hpos hparts hlow hhigh
  rw [Interval.onGrid]
  generalize hlow : (Interval.of x).num * (powerOfTen exponent).2 /
    ((Interval.of x).den * (powerOfTen exponent).1) = low
  obtain ⟨hle, hlt⟩ := grid_around x exponent hlow
  rw [size] at hfine hwidth hle hlt
  by_cases hhalf : (x.mantissa : ℚ) * 2 ^ x.scale - low * 10 ^ exponent ≤ 10 ^ exponent / 2
  · have hfits : (Interval.of x).holds low _ _ = true := hinside (by nlinarith) (by nlinarith)
    have hlowpos : 0 < low := by
      by_contra hzero
      have hzero : low = 0 := by omega
      rw [hzero, Nat.cast_zero] at hlt
      linarith
    rw [hfits, decide_eq_true hlowpos, Bool.true_and, Bool.true_and]
    split_ifs with hfirst hsecond
    · rfl
    · rfl
    · simp [hsecond] at hfirst
  · have hfits : (Interval.of x).holds (low + 1) _ _ = true :=
      hinside (by push_cast; nlinarith) (by push_cast; nlinarith)
    rw [hfits, if_pos rfl]
    split_ifs
    · rfl
    · rfl

end

/-! ### The search -/

section

variable {x : Double}

theorem pow_digitCount_le {n : Nat} (hn : 0 < n) :
    (10 : ℚ) ^ ((digitCount n : Int) - 1) ≤ n := by
  obtain ⟨k, hk⟩ : ∃ k, digitCount n = k + 1 :=
    Nat.exists_eq_succ_of_ne_zero (Nat.length_toDigits_pos).ne'
  have hle : 10 ^ k ≤ n := by
    cases k with
    | zero => exact hn
    | succ k =>
      by_contra hlt
      have hshort := (Nat.length_toDigits_le_iff (by decide) (by omega)).mpr (not_le.mp hlt)
      rw [digitCount] at hk
      omega
  rw [hk]
  push_cast
  rw [add_sub_cancel_right, zpow_natCast]
  exact_mod_cast hle

theorem lt_pow_digitCount (n : Nat) : (n : ℚ) < 10 ^ (digitCount n : Int) := by
  have hlt : n < 10 ^ digitCount n :=
    (Nat.length_toDigits_le_iff (by decide) Nat.length_toDigits_pos).mp (Nat.le_refl _)
  rw [zpow_natCast]
  exact_mod_cast hlt

/-- The estimate of the first digit's place is not too high. -/
theorem pow_magnitude_le {num den : Nat} (hnum : 0 < num) (hden : 0 < den) :
    (10 : ℚ) ^ magnitude num den ≤ (num : ℚ) / den := by
  have hnum' : (0 : ℚ) < num := by exact_mod_cast hnum
  have hden' : (0 : ℚ) < den := by exact_mod_cast hden
  rw [magnitude]
  split_ifs with hle
  · calc (10 : ℚ) ^ ((digitCount (num / den) : Int) - 1)
        ≤ (num / den : Nat) := pow_digitCount_le (Nat.div_pos hle hden)
      _ ≤ (num : ℚ) / den := Nat.cast_div_le
  · -- The ceiling of the inverse ratio has at most that many digits.
    generalize hup : (den + num - 1) / num = up
    have hceil : den ≤ up * num := by
      have hdiv := Nat.div_add_mod (den + num - 1) num
      have hmod := Nat.mod_lt (den + num - 1) hnum
      rw [hup] at hdiv
      rw [Nat.mul_comm]
      omega
    have hdigits : (up : ℚ) ≤ 10 ^ (digitCount (up - 1) : Int) := by
      have hlt := lt_pow_digitCount (up - 1)
      rw [zpow_natCast] at hlt ⊢
      have hlt : up - 1 < 10 ^ digitCount (up - 1) := by exact_mod_cast hlt
      have hle : up ≤ 10 ^ digitCount (up - 1) := by omega
      exact_mod_cast hle
    have hceil : (den : ℚ) ≤ up * num := by exact_mod_cast hceil
    rw [zpow_neg, inv_le_comm₀ (by positivity) (by positivity), inv_div, div_le_iff₀ hnum']
    exact hceil.trans (mul_le_mul_of_nonneg_right hdigits hnum'.le)

/-- The search ends with a decimal of the interval if one is in reach. -/
theorem search_hit (i : Interval) (tie : Tie) (top : Int) {last : Nat}
    (hlast : (i.onGrid tie (top + 1 - last)).isSome = true) (fuel used : Nat)
    (hsum : used + fuel = last) :
    ∃ exponent, i.onGrid tie exponent = some (i.search tie top fuel used) := by
  induction fuel generalizing used with
  | zero =>
    obtain ⟨d, hd⟩ := Option.isSome_iff_exists.mp hlast
    have hused : used = last := by omega
    rw [Interval.search, hused, hd]
    exact ⟨_, hd⟩
  | succ fuel ih =>
    rw [Interval.search]
    cases hgrid : i.onGrid tie (top + 1 - used) with
    | none => exact ih (used + 1) (by omega)
    | some d => exact ⟨_, hgrid⟩

/-- Trailing zeros are moved, not dropped. -/
theorem trim_spec (fuel : Nat) (d : Scaled) (hpos : 0 < d.digits) :
    0 < (trim fuel d).digits ∧
      ((trim fuel d).digits : ℚ) * 10 ^ (trim fuel d).exponent = d.digits * 10 ^ d.exponent := by
  induction fuel generalizing d with
  | zero => exact ⟨hpos, rfl⟩
  | succ fuel ih =>
    rw [trim]
    split_ifs with hzero
    · have hdigits : d.digits = 10 * (d.digits / 10) := by omega
      obtain ⟨hpos', hvalue⟩ := ih ⟨d.digits / 10, d.exponent + 1⟩ (by simp only; omega)
      refine ⟨hpos', hvalue.trans ?_⟩
      have hcast : (d.digits : ℚ) = 10 * (d.digits / 10 : Nat) := by exact_mod_cast hdigits
      rw [hcast, zpow_add_one₀ (by norm_num)]
      ring
    · exact ⟨hpos, rfl⟩

/-- The shortest decimal of a positive double is nearest to it. -/
theorem shortest_nearest (tie : Tie) (hpos : x.mantissa ≠ 0) :
    0 < (shortest tie x).digits ∧
      Nearest ((shortest tie x).digits * 10 ^ (shortest tie x).exponent) x := by
  have hden := den_pos x
  have hdenpos : 0 < (Interval.of x).den := by exact_mod_cast hden
  have hsize : 0 < size x := by
    have hmantissa : (0 : ℚ) < x.mantissa := by exact_mod_cast Nat.pos_of_ne_zero hpos
    rw [size]
    positivity
  have hnum : 0 < (Interval.of x).num := by
    have hcast : (0 : ℚ) < (Interval.of x).num := by
      rw [num_eq]
      positivity
    exact_mod_cast hcast
  have htop := pow_magnitude_le hnum hdenpos
  rw [num_eq, mul_div_cancel_right₀ _ hden.ne'] at htop
  generalize htop' : magnitude (Interval.of x).num (Interval.of x).den = top at htop
  have hfine : 10000000000000000 * (10 : ℚ) ^ (top + 1 - (17 : Nat)) ≤ size x := by
    have hpow : (10 : ℚ) ^ top = 10000000000000000 * 10 ^ (top + 1 - (17 : Nat)) := by
      have hsplit : top = 16 + (top + 1 - (17 : Nat)) := by omega
      nth_rewrite 1 [hsplit]
      rw [zpow_add₀ (by norm_num)]
      norm_num
    rw [← hpow]
    exact htop
  obtain ⟨exponent, hhit⟩ :=
    search_hit (Interval.of x) tie top (onGrid_isSome hpos tie hfine) 16 1 rfl
  obtain ⟨hdigits, hnearest⟩ := onGrid_nearest hpos hhit
  obtain ⟨hpos', hvalue⟩ := trim_spec 17 _ hdigits
  rw [shortest, htop']
  refine ⟨hpos', ?_⟩
  rw [hvalue]
  exact hnearest

end

end StagedCompiler.Decimal
