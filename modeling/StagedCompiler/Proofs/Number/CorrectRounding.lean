import StagedCompiler.Proofs.Number.NearestDouble

/-!
Every number that is not negative is read as the double nearest to it, or as
infinity if it lies beyond the largest double by half of its last place.
-/

namespace StagedCompiler.Double

def Rounds (q : ℚ) (x : Double) : Prop :=
  x.isNegative = false ∧ (x.isFinite = true ∧ Nearest q x ∨
    x = infinity ∧ (9007199254740992 - 1 / 2) * 2 ^ (971 : Int) ≤ q)

structure NearestNat (q : ℚ) (k : Nat) : Prop where
  low : (k : ℚ) - 1 / 2 ≤ q
  high : q ≤ k + 1 / 2
  inside : k % 2 = 1 → (k : ℚ) - 1 / 2 < q ∧ q < k + 1 / 2

section

variable {num den : Nat}

/-- Rounded division gives the nearest integer, the even one of two. -/
theorem nearestNat_roundDiv (hden : 0 < den) :
    NearestNat ((num : ℚ) / den) (roundDiv num den) := by
  have hpos : (0 : ℚ) < den := by exact_mod_cast hden
  have hdiv := Nat.div_add_mod num den
  have hmod := Nat.mod_lt num hden
  unfold roundDiv
  dsimp only
  generalize num / den = q at hdiv ⊢
  generalize num % den = r at hdiv hmod ⊢
  have hratio : (num : ℚ) / den = q + r / den := by
    rw [← hdiv]
    push_cast
    field_simp
  have hrest : (0 : ℚ) ≤ r / den := by positivity
  rw [hratio]
  split_ifs with hdown
  · have hhalf : (r : ℚ) / den ≤ 1 / 2 := by
      rw [div_le_div_iff₀ hpos two_pos]
      have h : r * 2 ≤ 1 * den := by omega
      exact_mod_cast h
    refine ⟨by linarith, by linarith, fun hodd => ⟨by linarith, ?_⟩⟩
    have hless : (r : ℚ) / den < 1 / 2 := by
      rw [div_lt_div_iff₀ hpos two_pos]
      have h : r * 2 < 1 * den := by omega
      exact_mod_cast h
    linarith
  · have hhalf : (1 : ℚ) / 2 ≤ r / den := by
      rw [div_le_div_iff₀ two_pos hpos]
      have h : 1 * den ≤ r * 2 := by omega
      exact_mod_cast h
    have hone : (r : ℚ) / den < 1 := by
      rw [div_lt_one hpos]
      exact_mod_cast hmod
    have hnext : ((q + 1 : Nat) : ℚ) = q + 1 := Nat.cast_succ q
    refine ⟨by linarith, by linarith, fun hodd => ⟨?_, by linarith⟩⟩
    have hmore : (1 : ℚ) / 2 < r / den := by
      rw [div_lt_div_iff₀ two_pos hpos]
      have h : 1 * den < r * 2 := by omega
      exact_mod_cast h
    linarith

/-- Rounding on a grid gives the nearest point of it, the even one of two. -/
theorem nearestNat_roundAt (hden : 0 < den) (scale : Int) :
    NearestNat ((num : ℚ) / den / 2 ^ scale) (roundAt num den scale) := by
  have hpos : (0 : ℚ) < den := by exact_mod_cast hden
  unfold roundAt
  split_ifs with hscale
  · have hratio : (num : ℚ) / den / 2 ^ scale = num / (den * Nat.pow 2 scale.toNat : Nat) := by
      rw [Nat.cast_mul, cast_pow_toNat 2 hscale, div_div, Nat.cast_ofNat]
    rw [hratio]
    exact nearestNat_roundDiv (Nat.mul_pos hden (Nat.pow_pos (by decide)))
  · have hratio : (num : ℚ) / den / 2 ^ scale = (num * Nat.pow 2 (-scale).toNat : Nat) / den := by
      rw [Nat.cast_mul, cast_pow_neg_toNat 2 hscale, Nat.cast_ofNat]
      field_simp
    rw [hratio]
    exact nearestNat_roundDiv hden

end

/-! ### Doubles from their bits -/

/-- Bits below those of infinity are the two fields of a finite double. -/
theorem fields_of_bits {bits : Nat} (h : bits < infinity.bits.toNat) :
    (⟨bits.toUInt64⟩ : Double).isNegative = false ∧ (⟨bits.toUInt64⟩ : Double).isFinite = true ∧
      (⟨bits.toUInt64⟩ : Double).exponentField = bits / fractions ∧
        (⟨bits.toUInt64⟩ : Double).fractionField = bits % fractions := by
  have hinf : infinity.bits.toNat = 9218868437227405312 := by decide
  have hbits : bits.toUInt64.toNat = bits := by
    rw [Nat.toUInt64, UInt64.toNat_ofNat']
    omega
  have hexponent : (⟨bits.toUInt64⟩ : Double).exponentField = bits / fractions := by
    rw [exponentField, hbits, fractions]
    omega
  have hfraction : (⟨bits.toUInt64⟩ : Double).fractionField = bits % fractions := by
    rw [fractionField, hbits]
  refine ⟨decide_eq_false ?_, decide_eq_true ?_, hexponent, hfraction⟩
  · rw [hbits]
    omega
  · rw [hexponent, fractions]
    omega

section

variable {q : ℚ} {scale : Int} {k : Nat} {x : Double}

/-- Between a power of two and the next, the mantissa has 53 bits, or it is the
power itself. -/
theorem NearestNat.le_of_lt (hk : NearestNat (q / 2 ^ scale) k) (hhigh : q < 2 ^ (scale + 53)) :
    k ≤ 9007199254740992 := by
  have hunit : (0 : ℚ) < 2 ^ scale := by positivity
  have hlow := hk.low
  rw [zpow_add₀ two_ne_zero, mul_comm, ← div_lt_iff₀ hunit] at hhigh
  norm_num at hhigh
  have hlt : (k : ℚ) < 9007199254740993 := by linarith
  have hlt : k < 9007199254740993 := by exact_mod_cast hlt
  omega

theorem NearestNat.ge_of_le (hk : NearestNat (q / 2 ^ scale) k) (hlow : 2 ^ (scale + 52) ≤ q) :
    4503599627370496 ≤ k := by
  have hunit : (0 : ℚ) < 2 ^ scale := by positivity
  have hhigh := hk.high
  rw [zpow_add₀ two_ne_zero, mul_comm, ← le_div_iff₀ hunit] at hlow
  norm_num at hlow
  have hlt : (4503599627370495 : ℚ) < k := by linarith
  have hlt : 4503599627370495 < k := by exact_mod_cast hlt
  omega

/-- A double is nearest to what its mantissa is nearest to, at its own scale. -/
theorem NearestNat.nearest (hk : NearestNat (q / 2 ^ x.scale) x.mantissa)
    (hpower : x.fractionField = 0 → 1 < x.exponentField → x.mantissa * 2 ^ x.scale ≤ q) :
    Nearest q x := by
  have hunit : (0 : ℚ) < 2 ^ x.scale := by positivity
  have hhigh := hk.high
  have hlow := hk.low
  have hinside := hk.inside
  rw [le_div_iff₀ hunit] at hlow
  rw [div_le_iff₀ hunit] at hhigh
  rw [lt_div_iff₀ hunit, div_lt_iff₀ hunit] at hinside
  by_cases hleast : x.fractionField = 0 ∧ 1 < x.exponentField
  · have hbelow : x.below = 1 / 4 := if_pos hleast
    have hless : ((x.mantissa : ℚ) - 1 / 4) * 2 ^ x.scale < q := by
      have hle := hpower hleast.1 hleast.2
      linarith
    refine ⟨hbelow ▸ hless.le, hhigh, fun hodd => ⟨hbelow ▸ hless, (hinside hodd).2⟩⟩
  · have hbelow : x.below = 1 / 2 := if_neg hleast
    exact ⟨hbelow ▸ hlow, hhigh, fun hodd => hbelow ▸ hinside hodd⟩

/-- The bits of a scale and a mantissa are those of a double with both. -/
theorem parts_of_fields (hscale : -1074 ≤ scale)
    (hk : k < 9007199254740992) (hnormal : scale = -1074 ∨ 4503599627370496 ≤ k)
    (hexponent : x.exponentField = ((scale + 1074).toNat * fractions + k) / fractions)
    (hfraction : x.fractionField = ((scale + 1074).toNat * fractions + k) % fractions) :
    x.mantissa = k ∧ x.scale = scale := by
  rw [fractions] at hexponent hfraction
  unfold mantissa Double.scale
  rw [fractions]
  split_ifs with hzero
  · omega
  · omega

/-- The double with these bits is nearest to the number, also if the mantissa is
rounded up to the next power of two. -/
theorem nearest_of_fields (hscale : -1074 ≤ scale) (hk : NearestNat (q / 2 ^ scale) k)
    (hhigh : q < 2 ^ (scale + 53)) (hlow : scale = -1074 ∨ 2 ^ (scale + 52) ≤ q)
    (hexponent : x.exponentField = ((scale + 1074).toNat * fractions + k) / fractions)
    (hfraction : x.fractionField = ((scale + 1074).toNat * fractions + k) % fractions) :
    Nearest q x := by
  have hunit : (0 : ℚ) < 2 ^ scale := by positivity
  rcases Nat.lt_or_eq_of_le (hk.le_of_lt hhigh) with hlt | hcarry
  · have hnormal : scale = -1074 ∨ 4503599627370496 ≤ k := hlow.imp_right hk.ge_of_le
    obtain ⟨hmantissa, hsame⟩ := parts_of_fields hscale hlt hnormal hexponent hfraction
    rw [← hsame, ← hmantissa] at hk
    apply hk.nearest
    intro hzero hone
    rw [fractions] at hexponent hfraction
    have hreached : (2 : ℚ) ^ (scale + 52) ≤ q := hlow.resolve_left (by omega)
    have hpower : k = 4503599627370496 := by omega
    rw [hmantissa, hsame, hpower]
    rw [zpow_add₀ two_ne_zero] at hreached
    norm_num at hreached ⊢
    linarith
  -- The mantissa was rounded up to the next power of two, which the exponent takes.
  · rw [hcarry, fractions] at hexponent hfraction
    have hfraction : x.fractionField = 0 := by omega
    have hexponent : x.exponentField = (scale + 1074).toNat + 2 := by omega
    have hmantissa : x.mantissa = 4503599627370496 := by
      rw [mantissa, if_neg (by omega), hfraction, fractions]
    have hnext : x.scale = scale + 1 := by
      rw [Double.scale, if_neg (by omega)]
      omega
    have hbelow : x.below = 1 / 4 := if_pos ⟨hfraction, by omega⟩
    have hle := hk.low
    rw [le_div_iff₀ hunit, hcarry] at hle
    rw [zpow_add₀ two_ne_zero] at hhigh
    norm_num at hle hhigh
    constructor
    · rw [hmantissa, hbelow, hnext, zpow_add_one₀ two_ne_zero]
      norm_num
      linarith
    · rw [hmantissa, hnext, zpow_add_one₀ two_ne_zero]
      norm_num
      linarith
    · rw [hmantissa]
      intro hodd
      omega

end

/-! ### Ratios and decimals -/

section

variable {num den : Nat}

/-- A quotient rounds to the nearest double, also beyond the largest one. -/
theorem ofRatio_rounds (hnum : 0 < num) (hden : 0 < den) :
    Rounds ((num : ℚ) / den) (ofRatio num den) := by
  obtain ⟨hpower, hnext⟩ := binaryMagnitude_spec hnum hden
  unfold ofRatio
  dsimp only
  generalize binaryMagnitude num den = e at hpower hnext ⊢
  generalize hscale : max (e - 52) (-1074) = scale
  have hk : NearestNat ((num : ℚ) / den / 2 ^ scale) (roundAt num den scale) :=
    nearestNat_roundAt hden scale
  generalize roundAt num den scale = k at hk ⊢
  have hhigh : (num : ℚ) / den < 2 ^ (scale + 53) :=
    hnext.trans_le (zpow_le_zpow_right₀ one_le_two (by omega))
  have hlow : scale = -1074 ∨ (2 : ℚ) ^ (scale + 52) ≤ (num : ℚ) / den := by
    by_cases hleast : scale = -1074
    · exact .inl hleast
    · have hsame : scale + 52 = e := by omega
      exact .inr (hsame ▸ hpower)
  split_ifs with hfits
  · obtain ⟨hsign, hfinite, hexponent, hfraction⟩ := fields_of_bits hfits
    exact ⟨hsign, .inl ⟨hfinite, nearest_of_fields (by omega) hk hhigh hlow hexponent hfraction⟩⟩
  · refine ⟨by decide, .inr ⟨rfl, ?_⟩⟩
    have hinf : infinity.bits.toNat = 9218868437227405312 := by decide
    have hbound := hk.le_of_lt hhigh
    rw [hinf, fractions] at hfits
    have hunit : (0 : ℚ) < 2 ^ scale := by positivity
    rcases Int.lt_or_le 971 scale with hbeyond | hlast
    · have hle : (2 : ℚ) ^ (1024 : Int) ≤ 2 ^ (scale + 52) :=
        zpow_le_zpow_right₀ one_le_two (by omega)
      calc (9007199254740992 - 1 / 2) * (2 : ℚ) ^ (971 : Int)
          ≤ 2 ^ (53 : Int) * 2 ^ (971 : Int) := by
            gcongr
            norm_num
        _ = 2 ^ (1024 : Int) := by
            rw [← zpow_add₀ two_ne_zero]
            norm_num
        _ ≤ 2 ^ (scale + 52) := hle
        _ ≤ num / den := hlow.resolve_left (by omega)
    · have hsame : scale = 971 := by omega
      have hcarry : k = 9007199254740992 := by omega
      have hle := hk.low
      rw [le_div_iff₀ hunit, hcarry, hsame] at hle
      exact_mod_cast hle

/-- Up to half of the least double all numbers round to zero. -/
theorem rounds_zero {q : ℚ} (hq : 0 ≤ q) (hle : q ≤ 2 ^ (-1075 : Int)) : Rounds q ⟨0⟩ := by
  have hmantissa : (⟨0⟩ : Double).mantissa = 0 := by decide
  have hscale : (⟨0⟩ : Double).scale = -1074 := by decide
  have hbelow : (⟨0⟩ : Double).below = 1 / 2 := if_neg (by decide)
  have hhalf : (2 : ℚ) ^ (-1075 : Int) = 2 ^ (-1074 : Int) / 2 :=
    zpow_sub_one₀ two_ne_zero (-1074 : Int)
  have hunit : (0 : ℚ) < 2 ^ (-1074 : Int) := by positivity
  rw [hhalf] at hle
  refine ⟨by decide, .inl ⟨by decide, ?_, ?_, ?_⟩⟩
  · rw [hmantissa, hbelow, hscale, Nat.cast_zero]
    linarith
  · rw [hmantissa, hscale, Nat.cast_zero]
    linarith
  · rw [hmantissa]
    intro hodd
    omega

/-- Beyond the doubles all numbers round to infinity. -/
theorem rounds_infinity {q : ℚ} (hle : 2 ^ (1075 : Int) ≤ q) : Rounds q infinity := by
  refine ⟨by decide, .inr ⟨rfl, ?_⟩⟩
  calc (9007199254740992 - 1 / 2) * (2 : ℚ) ^ (971 : Int)
      ≤ 2 ^ (104 : Int) * 2 ^ (971 : Int) := by
        gcongr
        norm_num
    _ = 2 ^ (1075 : Int) := by
        rw [← zpow_add₀ two_ne_zero]
        norm_num
    _ ≤ q := hle

/-- Two exponents that are both far too large or both far too small make no difference. -/
theorem ofDecimal_far {digits count : Nat} {e e' : Int}
    (h : 330 < e ∧ 330 < e' ∨ (count : Int) + e < -330 ∧ (count : Int) + e' < -330) :
    ofDecimal digits count e = ofDecimal digits count e' := by
  unfold ofDecimal
  rcases h with ⟨he, he'⟩ | ⟨he, he'⟩
  · have hsmall : ¬(count : Int) + e < -330 := by omega
    have hsmall' : ¬(count : Int) + e' < -330 := by omega
    have hsign : 0 ≤ e := by omega
    have hsign' : 0 ≤ e' := by omega
    rw [if_neg hsmall, if_neg hsmall', if_pos hsign, if_pos hsign', if_pos he, if_pos he']
  · rw [if_pos he, if_pos he']

/-- Decimal digits with an exponent are read as the double that their value rounds to. -/
theorem ofDecimal_rounds {digits count : Nat} {exponent : Int}
    (hcount : (digits : ℚ) ≤ 10 ^ (count : Int)) :
    Rounds (digits * 10 ^ exponent) (ofDecimal digits count exponent) := by
  have hunit : (0 : ℚ) < 10 ^ exponent := by positivity
  have hsettled : (2 : ℚ) ^ (1075 : Int) < 10 ^ (330 : Int) := pow_two_lt_pow_ten
  unfold ofDecimal
  split_ifs with hzero hsmall hexponent hlarge
  · apply rounds_zero
    · positivity
    · rw [hzero, Nat.cast_zero, zero_mul]
      positivity
  · apply rounds_zero (by positivity)
    calc (digits : ℚ) * 10 ^ exponent ≤ 10 ^ (count : Int) * 10 ^ exponent := by gcongr
      _ = 10 ^ ((count : Int) + exponent) := (zpow_add₀ (by norm_num) _ _).symm
      _ ≤ 10 ^ (-330 : Int) := zpow_le_zpow_right₀ (by norm_num) hsmall.le
      _ ≤ 2 ^ (-1075 : Int) := by
        rw [zpow_neg, zpow_neg]
        exact inv_anti₀ (by positivity) hsettled.le
  · apply rounds_infinity
    have hone : (1 : ℚ) ≤ digits := by exact_mod_cast Nat.pos_of_ne_zero hzero
    calc (2 : ℚ) ^ (1075 : Int) ≤ 10 ^ (330 : Int) := hsettled.le
      _ ≤ 10 ^ exponent := zpow_le_zpow_right₀ (by norm_num) (Int.le_of_lt hlarge)
      _ ≤ digits * 10 ^ exponent := le_mul_of_one_le_left hunit.le hone
  · have hpow : 0 < Nat.pow 10 exponent.toNat := Nat.pow_pos (by decide)
    have hrounds := ofRatio_rounds (Nat.mul_pos (Nat.pos_of_ne_zero hzero) hpow) Nat.one_pos
    rw [Nat.cast_mul, cast_pow_toNat 10 hexponent, Nat.cast_one, div_one, Nat.cast_ofNat] at hrounds
    exact hrounds
  · have hpow : 0 < Nat.pow 10 (-exponent).toNat := Nat.pow_pos (by decide)
    have hrounds := ofRatio_rounds (Nat.pos_of_ne_zero hzero) hpow
    rw [cast_pow_neg_toNat 10 hexponent, div_inv_eq_mul, Nat.cast_ofNat] at hrounds
    exact hrounds

end

end StagedCompiler.Double
