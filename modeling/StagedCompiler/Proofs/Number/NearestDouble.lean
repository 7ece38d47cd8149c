import Mathlib.Algebra.Order.Field.Power
import Mathlib.Data.Rat.Cast.Order
import Mathlib.Tactic.FieldSimp
import Mathlib.Tactic.Linarith
import Mathlib.Tactic.NormNum
import Mathlib.Tactic.Positivity
import Mathlib.Tactic.Ring
import StagedCompiler.Double

/-!
A double stands for all numbers that are nearest to it, and every such number
is read as that double. `Nearest` says which numbers these are: half of the way
to either neighbour, with the ends for an even mantissa.
-/

namespace StagedCompiler.Double

/-- A quotient within half of an integer is rounded to it, at the very half only
if the integer is even. -/
theorem roundDiv_eq {num den k : Nat} (hden : 0 < den) (hlow : 2 * k * den ≤ 2 * num + den)
    (hhigh : 2 * num ≤ 2 * k * den + den)
    (heven : 2 * k * den = 2 * num + den ∨ 2 * num = 2 * k * den + den → k % 2 = 0) :
    roundDiv num den = k := by
  have hdiv := Nat.div_add_mod num den
  have hmod := Nat.mod_lt num hden
  rw [roundDiv]
  generalize num / den = q at hdiv ⊢
  generalize num % den = r at hdiv hmod ⊢
  have hle : k ≤ q + 1 := by
    by_contra hlt
    have hmul : den * (q + 2) ≤ den * k := Nat.mul_le_mul_left den (by omega)
    nlinarith
  have hge : q ≤ k := by
    by_contra hlt
    have hmul : den * (k + 1) ≤ den * q := Nat.mul_le_mul_left den (by omega)
    nlinarith
  have hk : k = q ∨ k = q + 1 := by omega
  rcases hk with rfl | rfl
  · have hrest : 2 * r ≤ den := by nlinarith
    have htie (h : 2 * r = den) : k % 2 = 0 := heven (.inr (by nlinarith))
    rw [if_pos]
    rcases Nat.lt_or_eq_of_le hrest with hlt | heq
    · exact .inl hlt
    · exact .inr ⟨heq, htie heq⟩
  · have hrest : den ≤ 2 * r := by nlinarith
    have htie (h : 2 * r = den) : (q + 1) % 2 = 0 := heven (.inl (by nlinarith))
    rw [if_neg]
    rintro (hlt | ⟨heq, hq⟩)
    · omega
    · have hsum := htie heq
      omega

/-- An integer that is nearest, or even and halfway, is the rounded quotient. -/
theorem roundDiv_eq_of_rat {num den k : Nat} (hden : 0 < den)
    (hlow : (k : ℚ) - 1 / 2 ≤ (num : ℚ) / den) (hhigh : (num : ℚ) / den ≤ k + 1 / 2)
    (heven : (num : ℚ) / den = k - 1 / 2 ∨ (num : ℚ) / den = k + 1 / 2 → k % 2 = 0) :
    roundDiv num den = k := by
  have hpos : (0 : ℚ) < den := by exact_mod_cast hden
  rw [le_div_iff₀ hpos] at hlow
  rw [div_le_iff₀ hpos] at hhigh
  rw [div_eq_iff hpos.ne', div_eq_iff hpos.ne'] at heven
  apply roundDiv_eq hden
  · have h : (2 * k * den : ℚ) ≤ 2 * num + den := by linarith
    exact_mod_cast h
  · have h : (2 * num : ℚ) ≤ 2 * k * den + den := by linarith
    exact_mod_cast h
  · rintro (h | h)
    · have h : (2 * k * den : ℚ) = 2 * num + den := by exact_mod_cast h
      exact heven (.inl (by linarith))
    · have h : (2 * num : ℚ) = 2 * k * den + den := by exact_mod_cast h
      exact heven (.inr (by linarith))

theorem cast_pow_toNat {e : Int} (b : Nat) (he : 0 ≤ e) :
    ((Nat.pow b e.toNat : Nat) : ℚ) = (b : ℚ) ^ e := by
  obtain ⟨n, rfl⟩ := Int.eq_ofNat_of_zero_le he
  simp

theorem cast_pow_neg_toNat {e : Int} (b : Nat) (he : ¬0 ≤ e) :
    ((Nat.pow b (-e).toNat : Nat) : ℚ) = ((b : ℚ) ^ e)⁻¹ := by
  rw [cast_pow_toNat b (by omega), zpow_neg]

/-- A ratio that lies within half a unit of a multiple of the unit. -/
theorem roundAt_eq {num den k : Nat} {scale : Int} (hden : 0 < den)
    (hlow : ((k : ℚ) - 1 / 2) * 2 ^ scale ≤ (num : ℚ) / den)
    (hhigh : (num : ℚ) / den ≤ (k + 1 / 2) * 2 ^ scale)
    (heven : (num : ℚ) / den = (k - 1 / 2) * 2 ^ scale ∨
      (num : ℚ) / den = (k + 1 / 2) * 2 ^ scale → k % 2 = 0) :
    roundAt num den scale = k := by
  have hpos : (0 : ℚ) < den := by exact_mod_cast hden
  have hunit : (0 : ℚ) < 2 ^ scale := by positivity
  rw [← le_div_iff₀ hunit] at hlow
  rw [← div_le_iff₀ hunit] at hhigh
  rw [← div_eq_iff hunit.ne', ← div_eq_iff hunit.ne'] at heven
  rw [roundAt]
  split_ifs with hscale
  · have hratio : (num : ℚ) / den / 2 ^ scale = num / (den * Nat.pow 2 scale.toNat : Nat) := by
      rw [Nat.cast_mul, cast_pow_toNat 2 hscale, div_div, Nat.cast_ofNat]
    rw [hratio] at hlow hhigh heven
    exact roundDiv_eq_of_rat (Nat.mul_pos hden (Nat.pow_pos (by decide))) hlow hhigh heven
  · have hratio : (num : ℚ) / den / 2 ^ scale = (num * Nat.pow 2 (-scale).toNat : Nat) / den := by
      rw [Nat.cast_mul, cast_pow_neg_toNat 2 hscale, Nat.cast_ofNat]
      field_simp
    rw [hratio] at hlow hhigh heven
    exact roundDiv_eq_of_rat hden hlow hhigh heven

theorem zpow_log2_le {n : Nat} (hn : 0 < n) : (2 : ℚ) ^ (n.log2 : Int) ≤ n := by
  rw [zpow_natCast]
  exact_mod_cast Nat.log2_self_le hn.ne'

theorem lt_zpow_log2 (n : Nat) : (n : ℚ) < 2 ^ ((n.log2 : Int) + 1) := by
  have h : (n : ℚ) < 2 ^ (n.log2 + 1) := by exact_mod_cast Nat.lt_log2_self
  exact_mod_cast h

/-- The magnitude of a quotient is its binary logarithm, rounded down. -/
theorem binaryMagnitude_spec {num den : Nat} (hnum : 0 < num) (hden : 0 < den) :
    (2 : ℚ) ^ binaryMagnitude num den ≤ (num : ℚ) / den ∧
      (num : ℚ) / den < 2 ^ (binaryMagnitude num den + 1) := by
  have hpos : (0 : ℚ) < den := by exact_mod_cast hden
  have hlow : (2 : ℚ) ^ ((num.log2 : Int) - den.log2 - 1) ≤ (num : ℚ) / den := by
    rw [le_div_iff₀ hpos]
    calc (2 : ℚ) ^ ((num.log2 : Int) - den.log2 - 1) * den
        ≤ 2 ^ ((num.log2 : Int) - den.log2 - 1) * 2 ^ ((den.log2 : Int) + 1) := by
          gcongr
          exact (lt_zpow_log2 den).le
      _ = 2 ^ (num.log2 : Int) := by
          rw [← zpow_add₀ (by norm_num)]
          congr 1
          ring
      _ ≤ num := zpow_log2_le hnum
  have hhigh : (num : ℚ) / den < 2 ^ ((num.log2 : Int) - den.log2 + 1) := by
    rw [div_lt_iff₀ hpos]
    calc (num : ℚ) < 2 ^ ((num.log2 : Int) + 1) := lt_zpow_log2 num
      _ = 2 ^ ((num.log2 : Int) - den.log2 + 1) * 2 ^ (den.log2 : Int) := by
          rw [← zpow_add₀ (by norm_num)]
          congr 1
          ring
      _ ≤ 2 ^ ((num.log2 : Int) - den.log2 + 1) * den := by
          gcongr
          exact zpow_log2_le hden
  rw [binaryMagnitude]
  generalize (num.log2 : Int) - den.log2 = guess at hlow hhigh ⊢
  have hreached : (if 0 ≤ guess then den * Nat.pow 2 guess.toNat ≤ num
      else den ≤ num * Nat.pow 2 (-guess).toNat) ↔ (2 : ℚ) ^ guess ≤ (num : ℚ) / den := by
    rw [le_div_iff₀ hpos]
    split_ifs with hguess
    · rw [← Nat.cast_le (α := ℚ), Nat.cast_mul, cast_pow_toNat 2 hguess, mul_comm, Nat.cast_ofNat]
    · rw [← Nat.cast_le (α := ℚ), Nat.cast_mul, cast_pow_neg_toNat 2 hguess, Nat.cast_ofNat,
        ← div_eq_mul_inv, le_div_iff₀ (by positivity), mul_comm]
  by_cases h : (2 : ℚ) ^ guess ≤ (num : ℚ) / den
  · rw [if_pos (hreached.mpr h)]
    exact ⟨h, hhigh⟩
  · rw [if_neg fun hr => h (hreached.mp hr), sub_add_cancel]
    exact ⟨hlow, not_le.mp h⟩

/-! ### The parts of a double -/

section

variable {x : Double}

theorem fractionField_lt (x : Double) : x.fractionField < 4503599627370496 :=
  Nat.mod_lt _ (by decide)

theorem mantissa_lt (x : Double) : x.mantissa < 9007199254740992 := by
  have hfraction := fractionField_lt x
  rw [mantissa, fractions]
  split_ifs <;> omega

theorem bits_eq (hsign : x.isNegative = false) :
    x.bits.toNat = x.exponentField * fractions + x.fractionField := by
  rw [isNegative, decide_eq_false_iff_not] at hsign
  rw [exponentField, fractionField, fractions]
  omega

/-- The bits of a double count its mantissa on from those of its exponent. -/
theorem bits_eq_scale (hsign : x.isNegative = false) :
    (x.scale + 1074).toNat * fractions + x.mantissa = x.bits.toNat := by
  have hbits := bits_eq hsign
  rw [fractions] at hbits ⊢
  by_cases h : x.exponentField = 0
  · rw [mantissa, if_pos h, scale, if_pos h]
    omega
  · rw [mantissa, if_neg h, scale, if_neg h, fractions]
    omega

theorem bits_lt (hsign : x.isNegative = false) (hfinite : x.isFinite = true) :
    x.bits.toNat < infinity.bits.toNat := by
  have hbits := bits_eq hsign
  have hfraction := fractionField_lt x
  have hexponent : x.exponentField < 2048 := Nat.mod_lt _ (by decide)
  rw [isFinite, decide_eq_true_eq] at hfinite
  have hinf : infinity.bits.toNat = 2047 * 4503599627370496 := by decide
  rw [hinf, hbits, fractions]
  omega

theorem scale_ge (x : Double) : -1074 ≤ x.scale := by
  rw [scale]
  split_ifs
  · omega
  · omega

theorem mantissa_ge (h : x.exponentField ≠ 0) : 4503599627370496 ≤ x.mantissa := by
  rw [mantissa, if_neg h, fractions]
  omega

end

/-! ### Which numbers are nearest to a double -/

/-- How far below a double the numbers reach that are nearest to it, as part of
its last place. Below a power of two the neighbour is half as far away, unless
it is the least normal number. -/
def below (x : Double) : ℚ :=
  if x.fractionField = 0 ∧ 1 < x.exponentField then 1 / 4 else 1 / 2

/-- The number is nearest to the double; halfway between two doubles it belongs
to the even one. -/
structure Nearest (q : ℚ) (x : Double) : Prop where
  low : ((x.mantissa : ℚ) - x.below) * 2 ^ x.scale ≤ q
  high : q ≤ ((x.mantissa : ℚ) + 1 / 2) * 2 ^ x.scale
  inside : x.mantissa % 2 = 1 →
    ((x.mantissa : ℚ) - x.below) * 2 ^ x.scale < q ∧ q < ((x.mantissa : ℚ) + 1 / 2) * 2 ^ x.scale

section

variable {x : Double} {num den : Nat}

theorem below_le (x : Double) : x.below ≤ 1 / 2 := by
  rw [below]
  split_ifs <;> norm_num

theorem Nearest.low_half {q : ℚ} (h : Nearest q x) :
    ((x.mantissa : ℚ) - 1 / 2) * 2 ^ x.scale ≤ q := by
  have hunit : (0 : ℚ) < 2 ^ x.scale := by positivity
  have hbelow := below_le x
  have hlow := h.low
  nlinarith

/-- Rounding on the grid of the nearest double gives its mantissa. -/
theorem roundAt_of_nearest (hden : 0 < den) (h : Nearest ((num : ℚ) / den) x) :
    roundAt num den x.scale = x.mantissa := by
  apply roundAt_eq hden h.low_half h.high
  rintro (heq | heq)
  · by_contra hodd
    have hunit : (0 : ℚ) < 2 ^ x.scale := by positivity
    have hbelow := below_le x
    have hlow := (h.inside (by omega)).1
    nlinarith
  · by_contra hodd
    have hhigh := (h.inside (by omega)).2
    linarith

/-- A magnitude is the one with the number between its power and the next. -/
theorem binaryMagnitude_eq (hnum : 0 < num) (hden : 0 < den) {e : Int}
    (hlow : (2 : ℚ) ^ e ≤ (num : ℚ) / den) (hhigh : (num : ℚ) / den < 2 ^ (e + 1)) :
    binaryMagnitude num den = e := by
  obtain ⟨hlow', hhigh'⟩ := binaryMagnitude_spec hnum hden
  have hlt := (zpow_lt_zpow_iff_right₀ (by norm_num : (1 : ℚ) < 2)).mp (hlow.trans_lt hhigh')
  have hlt' := (zpow_lt_zpow_iff_right₀ (by norm_num : (1 : ℚ) < 2)).mp (hlow'.trans_lt hhigh)
  omega

theorem binaryMagnitude_lt (hnum : 0 < num) (hden : 0 < den) {e : Int}
    (hhigh : (num : ℚ) / den < 2 ^ e) : binaryMagnitude num den < e := by
  obtain ⟨hlow', -⟩ := binaryMagnitude_spec hnum hden
  exact (zpow_lt_zpow_iff_right₀ (by norm_num : (1 : ℚ) < 2)).mp (hlow'.trans_lt hhigh)

theorem ofRatio_of_bits {scale : Int} (hsign : x.isNegative = false) (hfinite : x.isFinite = true)
    (hscale : max (binaryMagnitude num den - 52) (-1074) = scale)
    (hbits : (scale + 1074).toNat * fractions + roundAt num den scale = x.bits.toNat) :
    ofRatio num den = x := by
  have hlt := bits_lt hsign hfinite
  rw [ofRatio, hscale]
  simp only [hbits, if_pos hlt]
  cases x
  simp

/-- At the scale of the double itself the ratio rounds to its mantissa. -/
theorem ofRatio_of_scale (hden : 0 < den) (hsign : x.isNegative = false)
    (hfinite : x.isFinite = true) (h : Nearest ((num : ℚ) / den) x)
    (hscale : max (binaryMagnitude num den - 52) (-1074) = x.scale) : ofRatio num den = x := by
  apply ofRatio_of_bits hsign hfinite hscale
  rw [roundAt_of_nearest hden h, bits_eq_scale hsign]

/-- From below a power of two the ratio rounds up to it, one scale further down. -/
theorem ofRatio_below_power (hnum : 0 < num) (hden : 0 < den) (hsign : x.isNegative = false)
    (hfinite : x.isFinite = true) (h : Nearest ((num : ℚ) / den) x)
    (hmantissa : x.mantissa = 4503599627370496) (hbelow : x.below = 1 / 4)
    (hscale : -1073 ≤ x.scale) (hlt : (num : ℚ) / den < 2 ^ (x.scale + 52)) :
    ofRatio num den = x := by
  have hunit : (0 : ℚ) < 2 ^ x.scale := by positivity
  have hhalf : (2 : ℚ) ^ (x.scale - 1) = 2 ^ x.scale / 2 := zpow_sub_one₀ (by norm_num) _
  have hlow := h.low
  rw [hmantissa, hbelow] at hlow
  rw [zpow_add₀ (by norm_num)] at hlt
  norm_num at hlow hlt
  have hmagnitude : binaryMagnitude num den = x.scale + 51 := by
    apply binaryMagnitude_eq hnum hden
    · rw [zpow_add₀ (by norm_num)]
      norm_num
      linarith
    · rw [add_assoc, zpow_add₀ (by norm_num)]
      norm_num
      linarith
  have hround : roundAt num den (x.scale - 1) = 9007199254740992 := by
    apply roundAt_eq hden
    · rw [hhalf]
      norm_num
      linarith
    · rw [hhalf]
      norm_num
      linarith
    · exact fun _ => by decide
  have hbits := bits_eq_scale hsign
  rw [hmantissa, fractions] at hbits
  have hmax : max (binaryMagnitude num den - 52) (-1074) = x.scale - 1 := by omega
  apply ofRatio_of_bits hsign hfinite hmax
  have hnext : (x.scale + 1074).toNat = (x.scale - 1 + 1074).toNat + 1 := by omega
  rw [hround, fractions, ← hbits, hnext]
  ring

/-- Every number that is nearest to a positive double is read as that double. -/
theorem ofRatio_of_nearest (hnum : 0 < num) (hden : 0 < den) (hsign : x.isNegative = false)
    (hfinite : x.isFinite = true) (h : Nearest ((num : ℚ) / den) x) : ofRatio num den = x := by
  have hunit : (0 : ℚ) < 2 ^ x.scale := by positivity
  have hhigh := h.high
  have hge := scale_ge x
  by_cases hreached : (2 : ℚ) ^ (x.scale + 52) ≤ (num : ℚ) / den
  · have hbound : (num : ℚ) / den < 2 ^ (x.scale + 52 + 1) := by
      have hmantissa : (x.mantissa : ℚ) + 1 ≤ 9007199254740992 := by exact_mod_cast mantissa_lt x
      rw [add_assoc, zpow_add₀ (by norm_num)]
      norm_num at hhigh ⊢
      nlinarith
    have hmagnitude := binaryMagnitude_eq hnum hden hreached hbound
    exact ofRatio_of_scale hden hsign hfinite h (by omega)
  · rw [not_le] at hreached
    have hmagnitude := binaryMagnitude_lt hnum hden hreached
    by_cases hleast : x.scale = -1074
    · exact ofRatio_of_scale hden hsign hfinite h (by omega)
    · have hexponent : 1 < x.exponentField := by
        rw [scale] at hleast
        split_ifs at hleast
        · omega
        · omega
      have hmantissa : x.mantissa = 4503599627370496 := by
        have hlow := h.low_half
        rw [zpow_add₀ (by norm_num)] at hreached
        norm_num at hlow hreached
        have hlt : (x.mantissa : ℚ) < 4503599627370497 := by nlinarith
        have hlt : x.mantissa < 4503599627370497 := by exact_mod_cast hlt
        have hnormal := mantissa_ge (x := x) (by omega)
        omega
      have hfraction : x.fractionField = 0 := by
        rw [mantissa, if_neg (by omega), fractions] at hmantissa
        omega
      have hbelow : x.below = 1 / 4 := if_pos ⟨hfraction, hexponent⟩
      exact ofRatio_below_power hnum hden hsign hfinite h hmantissa hbelow (by omega) hreached

theorem scale_le (hfinite : x.isFinite = true) : x.scale ≤ 971 := by
  have hexponent : x.exponentField < 2048 := Nat.mod_lt _ (by decide)
  rw [isFinite, decide_eq_true_eq] at hfinite
  rw [scale]
  split_ifs
  · omega
  · omega

theorem pow_two_lt_pow_ten : (2 : ℚ) ^ 1075 < 10 ^ 330 := by
  have h : 2 ^ 1075 < 10 ^ 330 := by decide +kernel
  exact_mod_cast h

/-- No number nearest to a positive double is so small that its size settles it. -/
theorem Nearest.lt {q : ℚ} (h : Nearest q x) (hpos : x.mantissa ≠ 0) :
    (10 : ℚ) ^ (-330 : Int) < q := by
  have hmantissa : (1 : ℚ) ≤ x.mantissa := by exact_mod_cast Nat.pos_of_ne_zero hpos
  have hunit : (2 : ℚ) ^ (-1075 : Int) ≤ 2 ^ (x.scale - 1) :=
    zpow_le_zpow_right₀ (by norm_num) (by have := scale_ge x; omega)
  have hhalf : (2 : ℚ) ^ (x.scale - 1) = 2 ^ x.scale / 2 := zpow_sub_one₀ (by norm_num) _
  have hzero : (0 : ℚ) < 2 ^ x.scale := by positivity
  have hlow := h.low_half
  calc (10 : ℚ) ^ (-330 : Int) < 2 ^ (-1075 : Int) := by
        rw [zpow_neg, zpow_neg]
        exact inv_strictAnti₀ (by positivity) pow_two_lt_pow_ten
    _ ≤ 2 ^ x.scale / 2 := hhalf ▸ hunit
    _ ≤ ((x.mantissa : ℚ) - 1 / 2) * 2 ^ x.scale := by nlinarith
    _ ≤ q := hlow

/-- No number nearest to a finite double is so large that its size settles it. -/
theorem Nearest.gt {q : ℚ} (h : Nearest q x) (hfinite : x.isFinite = true) :
    q < (10 : ℚ) ^ (330 : Int) := by
  have hmantissa : (x.mantissa : ℚ) + 1 ≤ 9007199254740992 := by exact_mod_cast mantissa_lt x
  have hunit : (2 : ℚ) ^ x.scale ≤ 2 ^ (971 : Int) :=
    zpow_le_zpow_right₀ (by norm_num) (scale_le hfinite)
  have hzero : (0 : ℚ) < 2 ^ x.scale := by positivity
  have hhigh := h.high
  calc q ≤ ((x.mantissa : ℚ) + 1 / 2) * 2 ^ x.scale := hhigh
    _ ≤ 2 ^ (53 : Int) * 2 ^ (971 : Int) := by
        apply mul_le_mul _ hunit hzero.le (by positivity)
        norm_num
        linarith
    _ ≤ 2 ^ (1075 : Int) := by
        rw [← zpow_add₀ (by norm_num)]
        exact zpow_le_zpow_right₀ (by norm_num) (by norm_num)
    _ < 10 ^ (330 : Int) := pow_two_lt_pow_ten

/-- Decimal digits whose value is nearest to a positive double are read as it. -/
theorem ofDecimal_of_nearest {digits count : Nat} {exponent : Int} (hsign : x.isNegative = false)
    (hfinite : x.isFinite = true) (hpos : x.mantissa ≠ 0)
    (hcount : (digits : ℚ) ≤ 10 ^ (count : Int))
    (h : Nearest (digits * 10 ^ exponent) x) : ofDecimal digits count exponent = x := by
  have hlow := h.lt hpos
  have hhigh := h.gt hfinite
  have hunit : (0 : ℚ) < 10 ^ exponent := by positivity
  have hdigits : 0 < digits := by
    by_contra hzero
    have hzero : digits = 0 := by omega
    have hpow : (0 : ℚ) < 10 ^ (-330 : Int) := by positivity
    rw [hzero, Nat.cast_zero, zero_mul] at hlow
    linarith
  have hsmall : ¬(count : Int) + exponent < -330 := by
    intro hlt
    have hpow : (10 : ℚ) ^ ((count : Int) + exponent) ≤ 10 ^ (-330 : Int) :=
      zpow_le_zpow_right₀ (by norm_num) hlt.le
    rw [zpow_add₀ (by norm_num)] at hpow
    nlinarith
  have hlarge : ¬exponent > 330 := by
    intro hgt
    have hone : (1 : ℚ) ≤ digits := by exact_mod_cast hdigits
    have hpow : (10 : ℚ) ^ (330 : Int) ≤ 10 ^ exponent :=
      zpow_le_zpow_right₀ (by norm_num) (Int.le_of_lt hgt)
    exact absurd hhigh (not_lt.mpr (hpow.trans (le_mul_of_one_le_left hunit.le hone)))
  rw [ofDecimal, if_neg hdigits.ne', if_neg hsmall]
  by_cases hexponent : 0 ≤ exponent
  · rw [if_pos hexponent, if_neg hlarge]
    have hpow : 0 < Nat.pow 10 exponent.toNat := Nat.pow_pos (by decide)
    apply ofRatio_of_nearest (Nat.mul_pos hdigits hpow) (by decide) hsign hfinite
    rw [Nat.cast_mul, cast_pow_toNat 10 hexponent, Nat.cast_one, div_one, Nat.cast_ofNat]
    exact h
  · rw [if_neg hexponent]
    have hpow : 0 < Nat.pow 10 (-exponent).toNat := Nat.pow_pos (by decide)
    apply ofRatio_of_nearest hdigits hpow hsign hfinite
    rw [cast_pow_neg_toNat 10 hexponent, div_inv_eq_mul, Nat.cast_ofNat]
    exact h

end

end StagedCompiler.Double
