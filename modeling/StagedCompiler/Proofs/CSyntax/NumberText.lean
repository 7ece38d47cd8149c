import Mathlib.Tactic.Tauto
import StagedCompiler.Proofs.CSyntax.Expr
import StagedCompiler.Proofs.CSyntax.Spelling
import StagedCompiler.Proofs.Number.ShortestDecimal

/-!
The numbers of generated expressions are constants of C with the same value.
-/

namespace StagedCompiler.CSyntax

/-! ### Digits -/

section

variable {text more : List Char}

theorem isWordPart_of_isDigit {c : Char} (h : c.isDigit = true) : isWordPart c = true := by
  simp [isWordPart, Char.isAlphanum, h]

/-- Letters, digits and points all belong to a number. -/
theorem numberTail_of_parts (last : Char) (h : ∀ c ∈ text, isWordPart c = true ∨ c = '.') :
    numberTail last text = text := by
  induction text generalizing last with
  | nil => rfl
  | cons c text ih =>
    have hc : (isWordPart c || c == '.') = true := by
      rcases h c (by simp) with hpart | hdot
      · simp [hpart]
      · simp [hdot]
    rw [numberTail, if_pos hc, ih c fun d hd => h d (List.mem_cons_of_mem _ hd)]

theorem all_isDigit_toDigits (n : Nat) : (Nat.toDigits 10 n).all Char.isDigit = true :=
  List.all_eq_true.mpr fun _ hc => Nat.isDigit_of_mem_toDigits (by decide) (by decide) hc

theorem toDigits_ne_nil (n : Nat) : Nat.toDigits 10 n ≠ [] :=
  List.ne_nil_of_length_pos Nat.length_toDigits_pos

theorem head_toDigits_ne_zero {n : Nat} (hn : 0 < n) : (Nat.toDigits 10 n).head? ≠ some '0' := by
  induction n using Nat.strongRecOn with
  | ind n ih =>
    rw [Nat.toDigits_eq_if (by decide)]
    split_ifs with hlt
    · have hall : ∀ d < 10, 0 < d → [Nat.digitChar d].head? ≠ some '0' := by decide
      exact hall n hlt hn
    · rw [List.head?_append_of_ne_nil _ (toDigits_ne_nil _)]
      exact ih (n / 10) (by omega) (by omega)

theorem integer?_toDigits (n : Nat) : integer? (Nat.toDigits 10 n) = some n := by
  rw [integer?]
  by_cases hn : n = 0
  · rw [hn]
    decide
  · rw [if_neg (head_toDigits_ne_zero (Nat.pos_of_ne_zero hn)), all_isDigit_toDigits,
      Nat.ofDigitChars_ten_toDigits]
    simp

theorem isNumber_of_digits (hne : text ≠ []) (h : text.all Char.isDigit = true) :
    isNumber text = true := by
  cases text with
  | nil => exact absurd rfl hne
  | cons c text =>
    rw [List.all_cons, Bool.and_eq_true, List.all_eq_true] at h
    have htail := numberTail_of_parts c fun d hd => .inl (isWordPart_of_isDigit (h.2 d hd))
    rw [isNumber, h.1, htail]
    simp

theorem constant?_toDigits (n : Nat) : constant? (Nat.toDigits 10 n) = some (.int n) := by
  rw [constant?, integer?_toDigits]

theorem ofDigitChars_zeros (k init : Nat) :
    Nat.ofDigitChars 10 (List.replicate k '0') init = init * 10 ^ k := by
  induction k generalizing init with
  | zero => simp
  | succ k ih =>
    rw [List.replicate_succ, Nat.ofDigitChars_cons, ih, Nat.sub_self, pow_succ]
    ring

theorem ofDigitChars_lt (h : text.all Char.isDigit = true) (init : Nat) :
    Nat.ofDigitChars 10 text init < (init + 1) * 10 ^ text.length := by
  induction text generalizing init with
  | nil => simp
  | cons c text ih =>
    rw [List.all_cons, Bool.and_eq_true] at h
    have hc := Text.isDigit_iff.mp h.1
    have hzero : '0'.toNat = 48 := rfl
    calc Nat.ofDigitChars 10 (c :: text) init
        < (10 * init + (c.toNat - 48) + 1) * 10 ^ text.length := by
          rw [Nat.ofDigitChars_cons, hzero]
          exact ih h.2 _
      _ ≤ (10 * (init + 1)) * 10 ^ text.length := Nat.mul_le_mul_right _ (by omega)
      _ = (init + 1) * 10 ^ (c :: text).length := by
          rw [List.length_cons, pow_succ]
          ring

end

/-! ### Floating constants -/

section

variable {p : Char → Bool} {text shown rest whole fraction : List Char}

theorem cutAt_none (h : ∀ c ∈ text, p c = false) : cutAt p text = (text, none) := by
  induction text with
  | nil => rfl
  | cons c text ih =>
    have hrest := ih fun d hd => h d (List.mem_cons_of_mem _ hd)
    have hc := h c (by simp)
    simp [cutAt, hc, hrest]

theorem cutAt_append {c : Char} (h : ∀ c ∈ text, p c = false) (hc : p c = true) :
    cutAt p (text ++ c :: rest) = (text, some rest) := by
  induction text with
  | nil => simp [cutAt, hc]
  | cons d text ih =>
    have hrest := ih fun e he => h e (List.mem_cons_of_mem _ he)
    have hd := h d (by simp)
    simp [cutAt, hd, hrest]

theorem not_point_of_digits (h : text.all Char.isDigit = true) (c : Char) (hc : c ∈ text) :
    (c == '.') = false := by
  have hdigit := List.all_eq_true.mp h c hc
  apply beq_false_of_ne
  rintro rfl
  cases hdigit

theorem not_exponent_of_digits (h : text.all Char.isDigit = true) (c : Char) (hc : c ∈ text) :
    (c == 'e' || c == 'E') = false := by
  have hdigit := List.all_eq_true.mp h c hc
  rw [Bool.or_eq_false_iff]
  constructor
  · apply beq_false_of_ne
    rintro rfl
    cases hdigit
  · apply beq_false_of_ne
    rintro rfl
    cases hdigit

/-- A text with a point or an exponent is no integer. -/
theorem integer?_eq_none {c : Char} (hc : c ∈ text) (hdigit : c.isDigit = false) :
    integer? text = none := by
  have hdigits : text.all Char.isDigit = false := by
    rw [List.all_eq_false]
    exact ⟨c, hc, by simp [hdigit]⟩
  have hoctal : (text.all fun c => (octalValue? c).isSome) = false := by
    rw [List.all_eq_false]
    refine ⟨c, hc, ?_⟩
    rw [octalValue?, if_neg]
    · simp
    · intro hrange
      have hlow := UInt32.le_iff_toNat_le.mp (Char.le_def.mp hrange.1)
      have hhigh := UInt32.le_iff_toNat_le.mp (Char.le_def.mp hrange.2)
      have hdigit' : c.isDigit = true := by
        rw [Text.isDigit_iff]
        exact ⟨hlow, Nat.le_trans hhigh (by decide)⟩
      rw [hdigit] at hdigit'
      cases hdigit'
  rw [integer?, hdigits, hoctal]
  split_ifs <;> simp_all

structure ReadsFloat (text : List Char) (x : Double) : Prop where
  quiet : Quiet text
  number : isNumber text = true
  constant : constant? text = some (.float x)

variable {x : Double}

/-- The digits of a constant as a decimal that is nearest to the double. -/
theorem ofDecimal_digits (hsign : x.isNegative = false) (hfinite : x.isFinite = true)
    (hpos : x.mantissa ≠ 0) (hdigits : text.all Char.isDigit = true) {exponent : Int}
    (h : Double.Nearest (Nat.ofDigitChars 10 text 0 * 10 ^ exponent) x) :
    Double.ofDecimal (Nat.ofDigitChars 10 text 0) text.length exponent = x := by
  apply Double.ofDecimal_of_nearest hsign hfinite hpos _ h
  have hlt := ofDigitChars_lt hdigits 0
  rw [Nat.zero_add, Nat.one_mul] at hlt
  rw [zpow_natCast]
  exact_mod_cast hlt.le

/-- A sign belongs to a number behind the letter of an exponent. -/
theorem numberTail_exponent (last : Char) (htext : ∀ c ∈ text, isWordPart c = true ∨ c = '.')
    (hrest : ∀ c ∈ rest, isWordPart c = true) :
    numberTail last (text ++ 'e' :: '-' :: rest) = text ++ 'e' :: '-' :: rest := by
  obtain ⟨last', htail⟩ := numberTail_append (numberTail_of_parts last htext) ('e' :: '-' :: rest)
  have hexponent := numberTail_of_parts '-' fun c hc => .inl (hrest c hc)
  simp [htail, numberTail, isWordPart, hexponent]

def exponentText (size : Int) : List Char :=
  (if size < 0 then ['-'] else []) ++ Nat.toDigits 10 size.natAbs

/-- An exponent is read as the number that it was written for. -/
theorem exponent?_exponentText (size : Int) : exponent? (some (exponentText size)) = some size := by
  have hall := all_isDigit_toDigits size.natAbs
  have hne : (Nat.toDigits 10 size.natAbs).isEmpty = false := by simp
  have hhead (c : Char) (hc : c.isDigit = false) :
      (Nat.toDigits 10 size.natAbs).head? ≠ some c := by
    intro hhead
    have hdigit := List.all_eq_true.mp hall c (List.mem_of_mem_head? hhead)
    rw [hc] at hdigit
    cases hdigit
  by_cases hsize : size < 0
  · have htext : exponentText size = '-' :: Nat.toDigits 10 size.natAbs := by
      rw [exponentText, if_pos hsize, List.singleton_append]
    rw [htext]
    simp only [exponent?, List.head?_cons, List.tail_cons, or_true, if_true, hall, hne,
      Nat.ofDigitChars_ten_toDigits, Bool.not_false, Bool.and_self, Option.some.injEq]
    omega
  · have htext : exponentText size = Nat.toDigits 10 size.natAbs := by
      rw [exponentText, if_neg hsize, List.nil_append]
    have hplus := hhead '+' (by decide)
    have hminus := hhead '-' (by decide)
    rw [htext]
    simp only [exponent?, hplus, hminus, or_self, if_false, if_true, hall, hne,
      Nat.ofDigitChars_ten_toDigits, Bool.not_false, Bool.and_self, Option.some.injEq]
    omega

theorem mem_exponentText {size : Int} {c : Char} (h : c ∈ exponentText size) :
    c = '-' ∨ c.isDigit = true := by
  rw [exponentText, List.mem_append] at h
  rcases h with hsign | hdigit
  · split_ifs at hsign
    · exact .inl (List.mem_singleton.mp hsign)
    · cases hsign
  · exact .inr (List.all_eq_true.mp (all_isDigit_toDigits _) c hdigit)

def decimalText (whole : List Char) (fraction? : Option (List Char)) (exponent : Option Int) :
    List Char :=
  (whole ++ fraction?.elim [] ('.' :: ·)) ++ exponent.elim [] fun size => 'e' :: exponentText size

section

variable {fraction? : Option (List Char)} {exponent : Option Int}
  (hdigits : (whole ++ fraction?.getD []).all Char.isDigit = true)

include hdigits

/-- The digits and points in front of the exponent. -/
theorem shown_parts (c : Char) (hc : c ∈ whole ++ fraction?.elim [] ('.' :: ·)) :
    c ∈ whole ++ fraction?.getD [] ∨ c = '.' := by
  cases fraction? with
  | none => exact .inl hc
  | some fraction =>
    simp only [Option.elim_some, Option.getD_some, List.mem_append, List.mem_cons] at hc ⊢
    tauto

theorem shown_isWordPart (c : Char) (hc : c ∈ whole ++ fraction?.elim [] ('.' :: ·)) :
    isWordPart c = true ∨ c = '.' := by
  rcases shown_parts hdigits c hc with hin | hdot
  · exact .inl (isWordPart_of_isDigit (List.all_eq_true.mp hdigits c hin))
  · exact .inr hdot

theorem quiet_decimalText : Quiet (decimalText whole fraction? exponent) := by
  apply quiet_of_number
  intro c hc
  rw [decimalText, List.mem_append] at hc
  rcases hc with hshown | hexponent
  · rcases shown_isWordPart hdigits c hshown with hpart | hdot
    · exact .inl hpart
    · exact .inr (.inl hdot)
  · cases exponent with
    | none => cases hexponent
    | some size =>
      rw [Option.elim_some, List.mem_cons] at hexponent
      rcases hexponent with rfl | hin
      · decide
      · rcases mem_exponentText hin with hminus | hdigit
        · exact .inr (.inr hminus)
        · exact .inl (isWordPart_of_isDigit hdigit)

/-- The preprocessor takes digits, a point and an exponent for one number. -/
theorem isNumber_decimalText (hne : whole ≠ []) :
    isNumber (decimalText whole fraction? exponent) = true := by
  have hshown := shown_isWordPart hdigits
  obtain ⟨d, rest, rfl⟩ := List.exists_cons_of_ne_nil hne
  have hd : d.isDigit = true := List.all_eq_true.mp hdigits d (by simp)
  have hrest (c : Char) (hc : c ∈ rest ++ fraction?.elim [] ('.' :: ·)) :
      isWordPart c = true ∨ c = '.' := hshown c (List.mem_cons_of_mem _ hc)
  rw [decimalText, List.cons_append, List.cons_append, isNumber, hd, Bool.true_and, beq_iff_eq]
  cases exponent with
  | none =>
    rw [Option.elim_none, List.append_nil]
    exact numberTail_of_parts d hrest
  | some size =>
    have hsize (c : Char) (hc : c ∈ Nat.toDigits 10 size.natAbs) : isWordPart c = true :=
      isWordPart_of_isDigit (List.all_eq_true.mp (all_isDigit_toDigits _) c hc)
    rw [Option.elim_some, exponentText]
    by_cases hneg : size < 0
    · rw [if_pos hneg]
      exact numberTail_exponent d hrest hsize
    · rw [if_neg hneg, List.nil_append]
      apply numberTail_of_parts
      intro c hc
      rcases List.mem_append.mp hc with hc | hc
      · exact hrest c hc
      · rcases List.mem_cons.mp hc with rfl | hc
        · decide
        · exact .inl (hsize c hc)

/-- A decimal is read as the double nearest to what its digits say. -/
theorem floating?_decimalText (hne : whole ≠ [])
    (hmark : (fraction?.isSome || exponent.isSome) = true) :
    floating? (decimalText whole fraction? exponent) =
      some (.ofDecimal (Nat.ofDigitChars 10 (whole ++ fraction?.getD []) 0)
        (whole ++ fraction?.getD []).length (exponent.getD 0 - (fraction?.getD []).length)) := by
  have hwhole : whole.all Char.isDigit = true := by
    rw [List.all_append, Bool.and_eq_true] at hdigits
    exact hdigits.1
  have hparts : cutAt (· == '.') (whole ++ fraction?.elim [] ('.' :: ·)) = (whole, fraction?) := by
    cases fraction? with
    | none =>
      rw [Option.elim_none, List.append_nil]
      exact cutAt_none (not_point_of_digits hwhole)
    | some fraction => exact cutAt_append (not_point_of_digits hwhole) rfl
  have hnot (c : Char) (hc : c ∈ whole ++ fraction?.elim [] ('.' :: ·)) :
      (c == 'e' || c == 'E') = false := by
    rcases shown_parts hdigits c hc with hin | rfl
    · exact not_exponent_of_digits hdigits c hin
    · decide
  have hcut : cutAt (fun c => c == 'e' || c == 'E') (decimalText whole fraction? exponent) =
      (whole ++ fraction?.elim [] ('.' :: ·), exponent.map exponentText) := by
    rw [decimalText]
    cases exponent with
    | none =>
      rw [Option.elim_none, List.append_nil]
      exact cutAt_none hnot
    | some size => exact cutAt_append hnot rfl
  have hsize : exponent? (exponent.map exponentText) = some (exponent.getD 0) := by
    cases exponent with
    | none => rfl
    | some size => exact exponent?_exponentText size
  rw [floating?, hcut]
  simp only [hparts, hdigits, hsize, Option.isSome_map, hmark]
  simp [hne]

/-- A decimal text is read as the double that its value is nearest to. -/
theorem readsFloat_decimalText (hsign : x.isNegative = false) (hfinite : x.isFinite = true)
    (hpos : x.mantissa ≠ 0) (hne : whole ≠ [])
    (hmark : (fraction?.isSome || exponent.isSome) = true)
    (h : Double.Nearest (Nat.ofDigitChars 10 (whole ++ fraction?.getD []) 0 *
      10 ^ (exponent.getD 0 - (fraction?.getD []).length)) x) :
    ReadsFloat (decimalText whole fraction? exponent) x where
  quiet := quiet_decimalText hdigits
  number := isNumber_decimalText hdigits hne
  constant := by
    have hinteger : integer? (decimalText whole fraction? exponent) = none := by
      rw [decimalText]
      rcases fraction? with _ | fraction
      · rcases exponent with _ | size
        · cases hmark
        · exact integer?_eq_none (c := 'e') (by simp) (by decide)
      · exact integer?_eq_none (c := '.') (by simp) (by decide)
    rw [constant?, hinteger, floating?_decimalText hdigits hne hmark,
      ofDecimal_digits hsign hfinite hpos hdigits h]
    rfl

end

end

/-! ### The texts of doubles -/

section

open Target.Literal (floatLayout)

variable {x : Double} {digits : List Char} {exponent top : Int}

/-- Below one: zeros behind the point and then the digits. -/
theorem plain_small (hneg : top < 0) (htop : top = exponent + digits.length - 1) :
    ∃ zeros, (floatLayout.plain digits top).toList =
        decimalText ['0'] (some (List.replicate zeros '0' ++ digits)) none ∧
      (Nat.ofDigitChars 10 (['0'] ++ (List.replicate zeros '0' ++ digits)) 0 : ℚ) *
          10 ^ (0 - ((List.replicate zeros '0' ++ digits).length : Int)) =
        Nat.ofDigitChars 10 digits 0 * 10 ^ exponent := by
  have hlength : (0 : Int) - ((List.replicate ((-top).toNat - 1) '0' ++ digits).length : Nat) =
      exponent := by
    simp only [List.length_append, List.length_replicate]
    omega
  refine ⟨(-top).toNat - 1, ?_, ?_⟩
  · simp [Decimal.Layout.plain, hneg, decimalText, Decimal.zeros]
  · rw [hlength, Nat.ofDigitChars_append, Nat.ofDigitChars_append, ofDigitChars_zeros]
    simp [Nat.ofDigitChars_cons]

/-- A whole number: the digits, then zeros in front of the point. -/
theorem plain_whole (hneg : ¬top < 0) (hshort : digits.length ≤ top.toNat + 1)
    (htop : top = exponent + digits.length - 1) :
    ∃ zeros, (floatLayout.plain digits top).toList =
        decimalText (digits ++ List.replicate zeros '0') (some ['0']) none ∧
      (Nat.ofDigitChars 10 ((digits ++ List.replicate zeros '0') ++ ['0']) 0 : ℚ) *
          10 ^ (0 - (['0'].length : Int)) =
        Nat.ofDigitChars 10 digits 0 * 10 ^ exponent := by
  refine ⟨top.toNat + 1 - digits.length, ?_, ?_⟩
  · simp only [Decimal.Layout.plain, if_neg hneg, if_pos hshort, List.take_of_length_le hshort]
    simp [decimalText, Decimal.zeros, floatLayout]
  · have hexponent : exponent = ((top.toNat + 1 - digits.length : Nat) : Int) := by omega
    rw [Nat.ofDigitChars_append, Nat.ofDigitChars_append, ofDigitChars_zeros, hexponent,
      zpow_natCast]
    simp [Nat.ofDigitChars_cons]
    ring

/-- The point between two digits. -/
theorem plain_mixed (hneg : ¬top < 0) (hlong : ¬digits.length ≤ top.toNat + 1)
    (htop : top = exponent + digits.length - 1) :
    (floatLayout.plain digits top).toList =
        decimalText (digits.take (top.toNat + 1)) (some (digits.drop (top.toNat + 1))) none ∧
      (Nat.ofDigitChars 10 (digits.take (top.toNat + 1) ++ digits.drop (top.toNat + 1)) 0 : ℚ) *
          10 ^ (0 - ((digits.drop (top.toNat + 1)).length : Int)) =
        Nat.ofDigitChars 10 digits 0 * 10 ^ exponent := by
  have hzeros : top.toNat + 1 - digits.length = 0 := by omega
  constructor
  · simp only [Decimal.Layout.plain, if_neg hneg, if_neg hlong, hzeros]
    simp [decimalText, Decimal.zeros]
  · rw [List.take_append_drop, List.length_drop]
    congr 2
    omega

/-- One digit, the others behind a point, and the exponent. -/
theorem scientific_eq (hne : digits ≠ []) (htop : top = exponent + digits.length - 1) :
    ∃ fraction?, (floatLayout.scientific digits top).toList =
        decimalText (digits.take 1) fraction? (some top) ∧
      digits = digits.take 1 ++ fraction?.getD [] ∧
      top - ((fraction?.getD []).length : Int) = exponent := by
  obtain ⟨d, rest, rfl⟩ := List.exists_cons_of_ne_nil hne
  have hsign : (if top < 0 then "-" else if floatLayout.plusSign then "+" else "").toList ++
      (toString top.natAbs).toList = exponentText top := by
    rw [exponentText, Nat.toString_eq_ofList_toDigits, String.toList_ofList]
    by_cases hneg : top < 0
    · simp [hneg]
    · simp [hneg, floatLayout]
  cases rest with
  | nil =>
    refine ⟨none, ?_, rfl, ?_⟩
    · rw [Decimal.Layout.scientific]
      simp only [String.toList_append, List.append_assoc, hsign]
      simp [decimalText]
    · simp at htop ⊢
      omega
  | cons e rest =>
    refine ⟨some (e :: rest), ?_, rfl, ?_⟩
    · rw [Decimal.Layout.scientific]
      simp only [String.toList_append, List.append_assoc, hsign]
      simp [decimalText]
    · simp at htop ⊢
      omega

section

variable (hsign : x.isNegative = false) (hfinite : x.isFinite = true) (hpos : x.mantissa ≠ 0)
  (hne : digits ≠ []) (hdigits : digits.all Char.isDigit = true)
  (htop : top = exponent + digits.length - 1)
  (h : Double.Nearest (Nat.ofDigitChars 10 digits 0 * 10 ^ exponent) x)

include hsign hfinite hpos hne hdigits htop h

/-- The layout without an exponent is read as the double it was made of. -/
theorem readsFloat_plain : ReadsFloat (floatLayout.plain digits top).toList x := by
  by_cases hneg : top < 0
  · obtain ⟨zeros, htext, hvalue⟩ := plain_small hneg htop
    rw [htext]
    apply readsFloat_decimalText (by simp [hdigits]) hsign hfinite hpos (by simp) rfl
    rw [Option.getD_some, Option.getD_none, hvalue]
    exact h
  · by_cases hshort : digits.length ≤ top.toNat + 1
    · obtain ⟨zeros, htext, hvalue⟩ := plain_whole hneg hshort htop
      rw [htext]
      apply readsFloat_decimalText (by simp [hdigits]) hsign hfinite hpos (by simp [hne]) rfl
      rw [Option.getD_some, Option.getD_none, hvalue]
      exact h
    · obtain ⟨htext, hvalue⟩ := plain_mixed hneg hshort htop
      rw [htext]
      apply readsFloat_decimalText _ hsign hfinite hpos (by simp [hne]) rfl
      · rw [Option.getD_some, Option.getD_none, hvalue]
        exact h
      · rw [Option.getD_some, List.take_append_drop]
        exact hdigits

theorem readsFloat_scientific : ReadsFloat (floatLayout.scientific digits top).toList x := by
  obtain ⟨fraction?, htext, hsplit, hexponent⟩ := scientific_eq hne htop
  rw [htext]
  apply readsFloat_decimalText _ hsign hfinite hpos (by simp [hne]) (by simp)
  · rw [← hsplit, Option.getD_some, hexponent]
    exact h
  · rw [← hsplit]
    exact hdigits

end

/-- The only double without a sign and with an empty mantissa is zero. -/
theorem eq_zero_of_mantissa (hsign : x.isNegative = false) (hzero : x.mantissa = 0) : x = ⟨0⟩ := by
  have hbits := Double.bits_eq hsign
  have hexponent : x.exponentField = 0 := by
    by_contra hne
    have hge := Double.mantissa_ge hne
    omega
  rw [Double.mantissa, if_pos hexponent] at hzero
  rw [hexponent, hzero] at hbits
  cases x
  simp_all [← UInt64.toNat_inj]

/-- The text of a finite double that is not negative is a constant with its
value. -/
theorem readsFloat_render (hsign : x.isNegative = false) (hfinite : x.isFinite = true) :
    ReadsFloat (floatLayout.render x).toList x := by
  have hnan : x.isNaN = false := by
    rw [Double.isFinite, decide_eq_true_eq] at hfinite
    simp [Double.isNaN, hfinite]
  rw [Decimal.Layout.render, hnan, hfinite, hsign]
  simp only [Bool.false_eq_true, if_false, Bool.not_true]
  rw [Decimal.Layout.magnitude]
  by_cases hzero : x.mantissa = 0
  · rw [if_pos hzero, eq_zero_of_mantissa hsign hzero]
    exact ⟨quiet_of_plain (by decide), by decide, rfl⟩
  · rw [if_neg hzero]
    obtain ⟨hdigits, hnearest⟩ := Decimal.shortest_nearest floatLayout.tie hzero
    have hvalue :
        Nat.ofDigitChars 10 (Nat.toDigits 10 (Decimal.shortest floatLayout.tie x).digits) 0 =
        (Decimal.shortest floatLayout.tie x).digits := Nat.ofDigitChars_ten_toDigits
    rw [← hvalue] at hnearest
    have hne := toDigits_ne_nil (Decimal.shortest floatLayout.tie x).digits
    have hall := all_isDigit_toDigits (Decimal.shortest floatLayout.tie x).digits
    dsimp only
    split_ifs
    · exact readsFloat_plain hsign hfinite hzero hne hall rfl hnearest
    · exact readsFloat_scientific hsign hfinite hzero hne hall rfl hnearest

end

end StagedCompiler.CSyntax
