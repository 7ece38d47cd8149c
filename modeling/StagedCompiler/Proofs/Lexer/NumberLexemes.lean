import Mathlib.Computability.Language
import StagedCompiler.Proofs.Lexer.SourcePieces
import StagedCompiler.Proofs.Number.CorrectRounding

/-!
Number literals as a language: digits, a fraction or none, an exponent or none.
A scan of a source takes the longest front that is in the language. The value of
a literal is that of its digits if these are all, and else the double that its
decimal value rounds to.
-/

namespace StagedCompiler

/-- The longest front of the bytes that is in the language. -/
structure IsLongest (language : Language UInt8) (s bytes : List UInt8) : Prop where
  mem : s ∈ language
  front : s <+: bytes
  longest : ∀ s' ∈ language, s' <+: bytes → s'.length ≤ s.length

/-- A run of bytes with a property, and what comes behind it without the
property: the run is all of those at the front, or nothing comes. -/
theorem run_of_front {α : Type} {p : α → Bool} {run tail l : List α}
    (hrun : ∀ a ∈ run, p a = true) (htail : ∀ a ∈ tail.head?, p a = false)
    (h : run ++ tail <+: l) :
    tail = [] ∧ run <+: l.takeWhile p ∨ run = l.takeWhile p ∧ tail <+: l.drop run.length := by
  induction run generalizing l with
  | nil =>
    cases tail with
    | nil => exact .inl ⟨rfl, List.nil_prefix⟩
    | cons a tail =>
      obtain ⟨after, rfl⟩ := h
      have ha : p a = false := htail a rfl
      refine .inr ⟨?_, List.prefix_append _ _⟩
      rw [List.nil_append, List.cons_append, List.takeWhile_cons_of_neg (by simp [ha])]
  | cons a run ih =>
    obtain ⟨after, rfl⟩ := h
    rw [List.cons_append, List.cons_append, List.takeWhile_cons_of_pos (hrun a List.mem_cons_self),
      List.length_cons, List.drop_succ_cons]
    have hrest := ih (fun a ha => hrun a (List.mem_cons_of_mem _ ha)) (List.prefix_append _ after)
    refine hrest.imp ?_ ?_
    · rintro ⟨hnil, hfront⟩
      exact ⟨hnil, (List.prefix_cons_inj a).mpr hfront⟩
    · rintro ⟨hall, hfront⟩
      exact ⟨congrArg (a :: ·) hall, hfront⟩

namespace Numeral

/-! ### The language of literals -/

def digits : Language UInt8 :=
  {s | s ≠ [] ∧ ∀ b ∈ s, Byte.isDigit b = true}

def oneOf (bytes : List UInt8) : Language UInt8 :=
  {s | ∃ b ∈ bytes, s = [b]}

/-- Digits, a point with digits or none, and `e` or `E` with digits or none,
which may have a sign. -/
def literals : Language UInt8 :=
  digits * (1 + oneOf [46] * digits) * (1 + oneOf [101, 69] * (1 + oneOf [43, 45]) * digits)

structure Valid (n : Numeral) : Prop where
  whole : n.whole ∈ digits
  fraction : ∀ b ∈ n.fraction, Byte.isDigit b = true
  exponent : n.mark = [] ∧ n.exponent = [] ∨
    (∃ e ∈ [101, 69], ∃ sign ∈ [[], [43], [45]], n.mark = e :: sign) ∧ n.exponent ∈ digits

/-- The literals are the texts of numbers in valid parts. -/
theorem mem_literals {s : List UInt8} : s ∈ literals ↔ ∃ n : Numeral, n.Valid ∧ n.text = s := by
  unfold literals
  simp only [Language.mem_mul, Language.mem_add, Language.mem_one]
  constructor
  · rintro ⟨front, ⟨whole, hwhole, point, hpoint, rfl⟩, last, hlast, rfl⟩
    have hfraction : ∃ fraction, fractionText fraction = point ∧
        ∀ b ∈ fraction, Byte.isDigit b = true := by
      rcases hpoint with rfl | ⟨dot, ⟨b, hb, rfl⟩, fraction, hfraction, rfl⟩
      · exact ⟨[], rfl, by simp⟩
      · cases List.mem_singleton.mp hb
        refine ⟨fraction, ?_, hfraction.2⟩
        rw [fractionText, if_neg (by simpa using hfraction.1)]
        rfl
    obtain ⟨fraction, rfl, hfraction⟩ := hfraction
    rcases hlast with rfl |
      ⟨mark, ⟨letter, ⟨e, he, rfl⟩, sign, hsign, rfl⟩, exponent, hexponent, rfl⟩
    · refine ⟨⟨whole, fraction, [], []⟩, ⟨hwhole, hfraction, .inl ⟨rfl, rfl⟩⟩, ?_⟩
      simp [text]
    · refine ⟨⟨whole, fraction, e :: sign, exponent⟩, ⟨hwhole, hfraction, .inr ⟨?_, hexponent⟩⟩, ?_⟩
      · refine ⟨e, he, sign, ?_, rfl⟩
        rcases hsign with rfl | ⟨b, hb, rfl⟩
        · simp
        · simpa using hb
      · simp [text]
  · rintro ⟨n, hn, rfl⟩
    refine ⟨n.whole ++ fractionText n.fraction, ⟨n.whole, hn.whole, _, ?_, rfl⟩,
      n.mark ++ n.exponent, ?_, ?_⟩
    · by_cases hnil : n.fraction = []
      · left
        rw [hnil]
        rfl
      · right
        refine ⟨[46], ⟨46, by simp, rfl⟩, n.fraction, ⟨hnil, hn.fraction⟩, ?_⟩
        rw [fractionText, if_neg (by simpa using hnil)]
        rfl
    · rcases hn.exponent with ⟨hmark, hexponent⟩ | ⟨⟨e, he, sign, hsign, hmark⟩, hexponent⟩
      · left
        rw [hmark, hexponent]
        rfl
      · right
        refine ⟨n.mark, ⟨[e], ⟨e, he, rfl⟩, sign, ?_, hmark.symm⟩, n.exponent, hexponent, rfl⟩
        simp only [List.mem_cons, List.not_mem_nil, or_false] at hsign
        rcases hsign with rfl | rfl | rfl
        · exact .inl rfl
        · exact .inr ⟨43, by simp, rfl⟩
        · exact .inr ⟨45, by simp, rfl⟩
    · rw [text, List.append_assoc]

/-! ### Scans -/

section

variable {n : Numeral} {bytes : List UInt8}

theorem digits_of_takeWhile (h : bytes.takeWhile Byte.isDigit ≠ []) :
    bytes.takeWhile Byte.isDigit ∈ digits :=
  ⟨h, List.all_eq_true.mp List.all_takeWhile⟩

theorem fractionOf_digits (bytes : List UInt8) : ∀ b ∈ fractionOf bytes, Byte.isDigit b = true := by
  cases bytes with
  | nil => simp [fractionOf]
  | cons b rest =>
    rw [fractionOf]
    split
    · exact List.all_eq_true.mp List.all_takeWhile
    · simp

/-- An exponent is empty, or a letter, a sign or none, and digits. -/
theorem exponentOf_valid (bytes : List UInt8) :
    (exponentOf bytes).1 = [] ∧ (exponentOf bytes).2 = [] ∨
      (∃ e ∈ [101, 69], ∃ sign ∈ [[], [43], [45]], (exponentOf bytes).1 = e :: sign) ∧
        (exponentOf bytes).2 ∈ digits := by
  cases bytes with
  | nil => exact .inl ⟨rfl, rfl⟩
  | cons e rest =>
    unfold exponentOf
    dsimp only
    split
    · next he =>
      split
      · exact .inl ⟨rfl, rfl⟩
      · next hne =>
        refine .inr ⟨⟨e, by simpa using he, _, ?_, rfl⟩, digits_of_takeWhile (by simpa using hne)⟩
        cases rest with
        | nil => simp
        | cons b rest =>
          simp only [List.take_succ_cons, List.take_zero, List.filter_cons, List.filter_nil]
          split
          · next hsign => simpa using hsign
          · simp
    · exact .inl ⟨rfl, rfl⟩

theorem scan_valid (h : (scan bytes).whole ≠ []) : (scan bytes).Valid :=
  ⟨digits_of_takeWhile h, fractionOf_digits _, exponentOf_valid _⟩

/-- No exponent has a digit or a point in front. -/
theorem Valid.head_exponent (hn : n.Valid) :
    ∀ b ∈ (n.mark ++ n.exponent).head?, Byte.isDigit b = false ∧ b ≠ 46 := by
  rcases hn.exponent with ⟨hmark, hexponent⟩ | ⟨⟨e, he, sign, -, hmark⟩, -⟩
  · simp [hmark, hexponent]
  · intro b hb
    rw [hmark] at hb
    cases hb
    simp only [List.mem_cons, List.not_mem_nil, or_false] at he
    rcases he with rfl | rfl <;> decide

theorem Valid.head_fraction (hn : n.Valid) :
    ∀ b ∈ (fractionText n.fraction ++ (n.mark ++ n.exponent)).head?, Byte.isDigit b = false := by
  intro b hb
  unfold fractionText at hb
  split at hb
  · exact (hn.head_exponent b hb).1
  · cases hb
    decide

/-- A literal without fraction and exponent is its digits. -/
theorem Valid.text_eq_whole (hn : n.Valid) (hint : n.isFloat = false) : n.text = n.whole := by
  simp only [isFloat, Bool.or_eq_false_iff, Bool.not_eq_false', List.isEmpty_iff] at hint
  rcases hn.exponent with ⟨hmark, -⟩ | ⟨-, hne, -⟩
  · simp [text, fractionText, hint, hmark]
  · exact absurd hint.2 hne

/-- A literal with more than digits has a point or a letter. -/
theorem Valid.text_not_digits (hn : n.Valid) (hfloat : n.isFloat = true) : n.text ∉ digits := by
  rintro ⟨-, hdigits⟩
  have hnot (b : UInt8) (hb : b ∈ (fractionText n.fraction ++ (n.mark ++ n.exponent)).head?) :
      False := by
    have hdigit := hdigits b (List.mem_append_right _ (List.mem_of_mem_head? hb))
    rw [hn.head_fraction b hb] at hdigit
    cases hdigit
  have hnone : fractionText n.fraction ++ (n.mark ++ n.exponent) = [] :=
    List.head?_eq_none_iff.mp (Option.eq_none_iff_forall_not_mem.mpr hnot)
  simp only [List.append_eq_nil_iff] at hnone
  obtain ⟨hfraction, -, hexponent⟩ := hnone
  have hnil : n.fraction = [] := by
    unfold fractionText at hfraction
    split at hfraction
    · next hempty => exact List.isEmpty_iff.mp hempty
    · cases hfraction
  simp [isFloat, hnil, hexponent] at hfloat

theorem length_digits_le (n : Numeral) : (n.whole ++ n.fraction).length ≤ n.text.length := by
  have hfraction : n.fraction.length ≤ (fractionText n.fraction).length := by
    unfold fractionText
    split
    · next hempty => simp [List.isEmpty_iff.mp hempty]
    · simp
  rw [text, List.length_append, List.length_append, List.length_append]
  omega

/-- A scan for an exponent finds the longest one. -/
theorem Valid.exponent_le (hn : n.Valid) (h : n.mark ++ n.exponent <+: bytes) :
    (n.mark ++ n.exponent).length ≤ ((exponentOf bytes).1 ++ (exponentOf bytes).2).length := by
  rcases hn.exponent with ⟨hmark, hexponent⟩ | ⟨⟨e, he, sign, hsign, hmark⟩, hne, hdigits⟩
  · simp [hmark, hexponent]
  · rw [hmark, List.cons_append] at h
    obtain ⟨after, rfl⟩ := h
    have hletter : e = 101 ∨ e = 69 := by simpa using he
    have hread : ((sign ++ (n.exponent ++ after)).take 1).filter (fun s => s == 43 || s == 45) =
        sign := by
      simp only [List.mem_cons, List.not_mem_nil, or_false] at hsign
      rcases hsign with rfl | rfl | rfl
      · obtain ⟨d, rest, hrest⟩ := List.exists_cons_of_ne_nil hne
        have hd := hdigits d (by simp [hrest])
        rw [hrest]
        simp only [List.nil_append, List.cons_append, List.take_succ_cons, List.take_zero]
        refine List.filter_eq_nil_iff.mpr fun s hs hboth => ?_
        cases List.mem_singleton.mp hs
        simp only [Bool.or_eq_true, beq_iff_eq] at hboth
        rcases hboth with rfl | rfl <;> cases hd
      · rfl
      · rfl
    have hfront : n.exponent <+: (n.exponent ++ after).takeWhile Byte.isDigit := by
      rw [List.takeWhile_append_of_pos hdigits]
      exact List.prefix_append _ _
    have hsome : ¬((n.exponent ++ after).takeWhile Byte.isDigit).isEmpty = true := by
      intro hempty
      rw [List.isEmpty_iff.mp hempty] at hfront
      exact hne (List.prefix_nil.mp hfront)
    rw [hmark, List.cons_append, List.cons_append, List.append_assoc, exponentOf]
    dsimp only
    rw [if_pos hletter, hread, List.drop_left, if_neg hsome]
    have hle := hfront.length_le
    simp only [List.cons_append, List.length_cons, List.length_append]
    omega

/-- A scan behind the whole digits finds the longest fraction with the longest exponent. -/
theorem Valid.fraction_le (hn : n.Valid)
    (h : fractionText n.fraction ++ (n.mark ++ n.exponent) <+: bytes) :
    (fractionText n.fraction ++ (n.mark ++ n.exponent)).length ≤
      (fractionText (fractionOf bytes) ++
        ((exponentOf (bytes.drop (fractionLength (fractionOf bytes)))).1 ++
          (exponentOf (bytes.drop (fractionLength (fractionOf bytes)))).2)).length := by
  by_cases hnil : n.fraction = []
  · have htext : fractionText n.fraction = [] := by rw [hnil]; rfl
    rw [htext, List.nil_append] at h ⊢
    cases hlast : n.mark ++ n.exponent with
    | nil => exact Nat.zero_le _
    | cons e rest =>
      have hpoint : e ≠ 46 := (hn.head_exponent e (by rw [hlast]; rfl)).2
      have hnone : fractionOf bytes = [] := by
        rw [hlast] at h
        obtain ⟨after, rfl⟩ := h
        exact if_neg hpoint
      rw [hnone, ← hlast]
      exact hn.exponent_le h
  · have htext : fractionText n.fraction = 46 :: n.fraction := if_neg (by simpa using hnil)
    rw [htext, List.cons_append] at h ⊢
    obtain ⟨b, rest, rfl⟩ : ∃ b rest, bytes = b :: rest := by
      obtain ⟨after, rfl⟩ := h
      exact ⟨46, _, rfl⟩
    obtain ⟨rfl, hrest⟩ := List.cons_prefix_cons.mp h
    rw [fractionOf, if_pos rfl]
    rcases run_of_front hn.fraction (fun b hb => (hn.head_exponent b hb).1) hrest with
      ⟨hlast, hfront⟩ | ⟨hall, hfront⟩
    · have hsome : ¬(rest.takeWhile Byte.isDigit).isEmpty = true := by
        intro hempty
        rw [List.isEmpty_iff.mp hempty] at hfront
        exact hnil (List.prefix_nil.mp hfront)
      have hle := hfront.length_le
      rw [hlast, List.append_nil, fractionText, if_neg hsome]
      simp only [List.cons_append, List.length_cons, List.length_append]
      omega
    · have hsome : ¬(rest.takeWhile Byte.isDigit).isEmpty = true := by
        rw [← hall]
        simpa using hnil
      have hle := hn.exponent_le hfront
      rw [hall] at hle ⊢
      rw [fractionText, fractionLength, if_neg hsome, if_neg hsome, List.drop_succ_cons]
      simp only [List.cons_append, List.length_cons, List.length_append] at hle ⊢
      omega

/-- No number at the front is longer than the one that is scanned. -/
theorem Valid.text_le (hn : n.Valid) (h : n.text <+: bytes) :
    n.text.length ≤ (scan bytes).text.length := by
  unfold text scan at *
  dsimp only at *
  rcases run_of_front hn.whole.2 hn.head_fraction h with ⟨hlast, hfront⟩ | ⟨hall, hfront⟩
  · have hle := hfront.length_le
    rw [hlast, List.append_nil, List.length_append]
    omega
  · rw [hall] at hfront ⊢
    have hle := hn.fraction_le hfront
    simp only [List.length_append] at hle ⊢
    omega

/-- A scan takes the longest literal at the front. -/
theorem scan_longest (h : (scan bytes).whole ≠ []) :
    IsLongest literals (scan bytes).text bytes := by
  refine ⟨mem_literals.mpr ⟨_, scan_valid h, rfl⟩, text_scan_prefix bytes, ?_⟩
  intro s' hs' hfront
  obtain ⟨n, hn, rfl⟩ := mem_literals.mp hs'
  exact hn.text_le hfront

end

end Numeral

/-! ### Values -/

namespace Byte

variable {ds : List UInt8}

theorem decimal_cons (d : UInt8) (ds : List UInt8) :
    decimal (d :: ds) = (d.toNat - 48) * Nat.pow 10 ds.length + decimal ds := by
  have hfold (n : Nat) : ds.foldl (fun n d => 10 * n + (d.toNat - 48)) n =
      n * Nat.pow 10 ds.length + decimal ds := by
    unfold decimal
    induction ds generalizing n with
    | nil => simp
    | cons d ds ih =>
      rw [List.foldl_cons, ih, List.foldl_cons, ih (10 * 0 + _), List.length_cons]
      change _ = n * (10 ^ (ds.length + 1)) + _
      change _ * 10 ^ ds.length + _ = _ + (_ * 10 ^ ds.length + _)
      ring
  rw [decimal, List.foldl_cons, hfold]
  simp

theorem digit_le {d : UInt8} (hd : isDigit d = true) : 48 ≤ d.toNat ∧ d.toNat ≤ 57 := by
  simpa [isDigit, UInt8.le_iff_toNat_le] using hd

theorem decimal_lt (hds : ∀ d ∈ ds, isDigit d = true) : decimal ds < Nat.pow 10 ds.length := by
  induction ds with
  | nil => decide
  | cons d ds ih =>
    have hrest := ih fun d hd => hds d (List.mem_cons_of_mem _ hd)
    have hd := digit_le (hds d List.mem_cons_self)
    have hmul : (d.toNat - 48) * Nat.pow 10 ds.length ≤ 9 * Nat.pow 10 ds.length :=
      Nat.mul_le_mul_right _ (by omega)
    have hpow : Nat.pow 10 (ds.length + 1) = Nat.pow 10 ds.length * 10 := rfl
    rw [decimal_cons, List.length_cons, hpow]
    omega

theorem decimal_le_append (ds more : List UInt8) : decimal ds ≤ decimal (ds ++ more) := by
  induction more using List.reverseRecOn with
  | nil => rw [List.append_nil]
  | append_singleton more d ih =>
    have hlast : decimal (ds ++ (more ++ [d])) = 10 * decimal (ds ++ more) + (d.toNat - 48) := by
      unfold decimal
      rw [← List.append_assoc, List.foldl_append]
      rfl
    omega

/-- A number whose first digit is not zero has the size that its digits tell. -/
theorem le_decimal {d : UInt8} (hd : isDigit d = true) (hne : d ≠ 48) :
    Nat.pow 10 ds.length ≤ decimal (d :: ds) := by
  have hrange := digit_le hd
  have hpos : d.toNat ≠ 48 := fun h => hne (UInt8.toNat_inj.mp h)
  have hmul : 1 * Nat.pow 10 ds.length ≤ (d.toNat - 48) * Nat.pow 10 ds.length :=
    Nat.mul_le_mul_right _ (by omega)
  rw [decimal_cons]
  omega

end Byte

namespace Numeral

variable {n : Numeral}

/-- Digits are read as their value, below the limit for integers. -/
theorem toInt?_eq (h : ∀ b ∈ n.whole, Byte.isDigit b = true) :
    n.toInt? = if Byte.decimal n.whole < 0x8000000000000000 then some ↑(Byte.decimal n.whole)
      else none := by
  unfold toInt?
  dsimp only
  rw [Byte.decimal_dropWhile]
  split
  · rfl
  · next hlong =>
    rw [if_neg]
    rw [← Byte.decimal_dropWhile]
    have hhead := head_dropWhile (· == 48) n.whole
    have hdigits (b : UInt8) (hb : b ∈ n.whole.dropWhile (· == 48)) : Byte.isDigit b = true :=
      h b ((List.dropWhile_suffix _).subset hb)
    cases hrest : n.whole.dropWhile (· == 48) with
    | nil =>
      rw [hrest, List.length_nil] at hlong
      omega
    | cons d ds =>
      rw [hrest] at hhead hdigits hlong
      have hge : Nat.pow 10 ds.length ≤ Byte.decimal (d :: ds) :=
        Byte.le_decimal (hdigits d List.mem_cons_self) (by simpa using hhead d rfl)
      have hpow : Nat.pow 10 19 ≤ Nat.pow 10 ds.length := by
        refine Nat.pow_le_pow_right (by decide) ?_
        rw [List.length_cons] at hlong
        omega
      have hlarge : 0x8000000000000000 ≤ Nat.pow 10 19 := by decide
      omega

/-- The digits of an exponent that count: up to the first that takes it to `2 ^ 16`. -/
structure Counted (digits read : List UInt8) : Prop where
  front : read <+: digits
  enough : read = digits ∨ 65536 ≤ Byte.decimal read
  needed : ∀ p, p <+: read → p ≠ read → Byte.decimal p < 65536

/-- The size of an exponent is the value of the digits that count. -/
theorem exponentSize_counted (digits : List UInt8) :
    ∃ read, Counted digits read ∧ exponentSize digits = Byte.decimal read := by
  induction digits using List.reverseRecOn with
  | nil =>
    have hneeded (p : List UInt8) (hp : p <+: []) (hne : p ≠ []) : Byte.decimal p < 65536 :=
      absurd (List.prefix_nil.mp hp) hne
    exact ⟨[], ⟨List.prefix_rfl, .inl rfl, hneeded⟩, rfl⟩
  | append_singleton digits d ih =>
    obtain ⟨read, hread, hsize⟩ := ih
    have hstep : exponentSize (digits ++ [d]) = if exponentSize digits < 65536
        then 10 * exponentSize digits + (d.toNat - 48) else exponentSize digits := by
      unfold exponentSize
      rw [List.foldl_append]
      rfl
    rw [hstep, hsize]
    split
    · next hsmall =>
      have hall : read = digits := hread.enough.resolve_right (by omega)
      subst hall
      refine ⟨read ++ [d], ⟨List.prefix_rfl, .inl rfl, fun p hp hne => ?_⟩, ?_⟩
      · have hfront := (List.prefix_concat_iff.mp hp).resolve_left hne
        by_cases hsame : p = read
        · rw [hsame]
          exact hsmall
        · exact hread.needed p hfront hsame
      · unfold Byte.decimal
        rw [List.foldl_append]
        rfl
    · next hlarge =>
      exact ⟨read, ⟨hread.front.trans (List.prefix_append _ _), .inr (by omega), hread.needed⟩, rfl⟩

def power (n : Numeral) (read : List UInt8) : Int :=
  (if n.mark.contains 45 then -(Byte.decimal read : Int) else Byte.decimal read) - n.fraction.length

def value (n : Numeral) (read : List UInt8) : ℚ :=
  Byte.decimal (n.whole ++ n.fraction) * 10 ^ n.power read

theorem toDouble_eq {read : List UInt8} (h : exponentSize n.exponent = Byte.decimal read) :
    n.toDouble = Double.ofDecimal (Byte.decimal (n.whole ++ n.fraction))
      (n.whole ++ n.fraction).length (n.power read) := by
  unfold toDouble power
  rw [h]

/-- The double of a number is the decimal that was read, rounded. -/
theorem Valid.rounds (hn : n.Valid) (read : List UInt8) :
    Double.Rounds (n.value read) (Double.ofDecimal (Byte.decimal (n.whole ++ n.fraction))
      (n.whole ++ n.fraction).length (n.power read)) := by
  apply Double.ofDecimal_rounds
  have hdigits (d : UInt8) (hd : d ∈ n.whole ++ n.fraction) : Byte.isDigit d = true :=
    (List.mem_append.mp hd).elim (hn.whole.2 d) (hn.fraction d)
  have hlt : ((Byte.decimal (n.whole ++ n.fraction) : Nat) : ℚ) <
      (Nat.pow 10 (n.whole ++ n.fraction).length : Nat) := by
    exact_mod_cast Byte.decimal_lt hdigits
  exact_mod_cast hlt.le

/-- A literal is read as the double that its value rounds to. Of its exponent
only so many digits count as take it to `2 ^ 16`, and this can be told only from
literals with more digits than make up for such an exponent. -/
theorem Valid.toDouble_rounds (hn : n.Valid) :
    (∃ read, Counted n.exponent read ∧ Double.Rounds (n.value read) n.toDouble) ∧
      ((n.whole ++ n.fraction).length ≤ 65000 →
        Double.Rounds (n.value n.exponent) n.toDouble) := by
  obtain ⟨read, hread, hsize⟩ := exponentSize_counted n.exponent
  rw [toDouble_eq hsize]
  refine ⟨⟨read, hread, hn.rounds read⟩, fun hshort => ?_⟩
  rcases hread.enough with hall | hlarge
  · rw [hall]
    exact hn.rounds _
  · have hmore : Byte.decimal read ≤ Byte.decimal n.exponent := by
      obtain ⟨more, hmore⟩ := hread.front
      rw [← hmore]
      exact Byte.decimal_le_append _ _
    have hfar : Double.ofDecimal (Byte.decimal (n.whole ++ n.fraction))
        (n.whole ++ n.fraction).length (n.power read) =
          Double.ofDecimal (Byte.decimal (n.whole ++ n.fraction))
            (n.whole ++ n.fraction).length (n.power n.exponent) := by
      apply Double.ofDecimal_far
      unfold power
      rw [List.length_append] at hshort ⊢
      split
      · right
        omega
      · left
        omega
    rw [hfar]
    exact hn.rounds _

end Numeral

end StagedCompiler
