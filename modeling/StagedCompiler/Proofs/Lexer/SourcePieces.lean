import StagedCompiler.Proofs.Lexer.SourceSpelling

/-!
What stands at the front of a source, said without a reader. `Piece.Front` has
one case for each sort of piece: which bytes the piece takes, and what it rests
on in the bytes that follow. The reader finds a piece that stands there, so a
piece takes at least one byte and never more than there are.
-/

namespace StagedCompiler

theorem append_prefix_of_drop {α : Type} {xs ys zs : List α} (hxs : xs <+: zs)
    (hys : ys <+: zs.drop xs.length) : xs ++ ys <+: zs := by
  obtain ⟨rest, rfl⟩ := hxs
  rw [List.drop_left] at hys
  exact (List.prefix_append_right_inj xs).mpr hys

theorem head_dropWhile {α : Type} (p : α → Bool) (l : List α) :
    ∀ x ∈ (l.dropWhile p).head?, p x = false := by
  intro x hx
  have hnot := List.head?_dropWhile_not p l
  rw [Option.mem_def.mp hx] at hnot
  exact hnot

namespace Numeral

def fractionText (fraction : List UInt8) : List UInt8 :=
  if fraction.isEmpty then [] else 46 :: fraction

def text (n : Numeral) : List UInt8 :=
  n.whole ++ (fractionText n.fraction ++ (n.mark ++ n.exponent))

theorem length_fractionText (fraction : List UInt8) :
    (fractionText fraction).length = fractionLength fraction := by
  unfold fractionText fractionLength
  split <;> rfl

theorem length_text (n : Numeral) : n.text.length = n.length := by
  simp only [text, length, List.length_append, length_fractionText]
  omega

theorem front_fractionText (bytes : List UInt8) : fractionText (fractionOf bytes) <+: bytes := by
  cases bytes with
  | nil => exact List.nil_prefix
  | cons b rest =>
    rw [fractionOf, fractionText]
    by_cases hpoint : b = 46
    · subst hpoint
      rw [if_pos rfl]
      split
      · exact List.nil_prefix
      · exact (List.prefix_cons_inj 46).mpr (List.takeWhile_prefix _)
    · simp [hpoint]

/-- The parts of an exponent stand at the front of the bytes. -/
theorem exponentOf_prefix (bytes : List UInt8) :
    (exponentOf bytes).1 ++ (exponentOf bytes).2 <+: bytes := by
  cases bytes with
  | nil => exact List.nil_prefix
  | cons b rest =>
    unfold exponentOf
    dsimp only
    by_cases hmark : b = 101 ∨ b = 69
    · rw [if_pos hmark]
      split
      · exact List.nil_prefix
      · rw [List.cons_append, List.prefix_cons_inj]
        apply append_prefix_of_drop _ (List.takeWhile_prefix _)
        cases rest with
        | nil => exact List.nil_prefix
        | cons sign rest =>
          rw [List.take_succ_cons, List.take_zero, List.filter_cons, List.filter_nil]
          split
          · exact ⟨rest, rfl⟩
          · exact List.nil_prefix
    · rw [if_neg hmark]
      exact List.nil_prefix

theorem text_scan_prefix (bytes : List UInt8) : (scan bytes).text <+: bytes := by
  unfold scan text
  dsimp only
  apply append_prefix_of_drop (List.takeWhile_prefix _)
  apply append_prefix_of_drop (front_fractionText _)
  rw [length_fractionText]
  exact exponentOf_prefix _

end Numeral

namespace Piece

/-- A block comment ends with the first `*/`, or there is none. -/
theorem blockEnd_cases {bytes : List UInt8} {seen length : Nat} {closed : Bool}
    (h : blockEnd seen bytes = (length, closed)) :
    (closed = true ∧ ∃ body after, bytes = body ++ ([42, 47] ++ after) ∧ ¬[42, 47] <:+: body ∧
        length = seen + body.length + 2) ∨
      (closed = false ∧ ¬[42, 47] <:+: bytes ∧ length = seen + bytes.length) := by
  induction bytes generalizing seen with
  | nil =>
    cases h
    exact .inr ⟨rfl, by decide, rfl⟩
  | cons b rest ih =>
    rw [blockEnd] at h
    split at h
    · next hclose =>
      obtain ⟨rfl, hslash⟩ := hclose
      cases rest with
      | nil => cases hslash
      | cons d after =>
        cases hslash
        cases h
        exact .inl ⟨rfl, [], after, rfl, by decide, rfl⟩
    · next hgoes =>
      have hfirst (body after : List UInt8) (hrest : rest = body ++ after) :
          ¬[42, 47] <:+: body → ¬[42, 47] <:+: b :: body := by
        intro hbody hinfix
        rcases List.infix_cons_iff.mp hinfix with ⟨more, hmore⟩ | hinfix
        · cases hmore
          exact hgoes ⟨rfl, by simp [hrest]⟩
        · exact hbody hinfix
      rcases ih h with ⟨rfl, body, after, hbytes, hbody, rfl⟩ | ⟨rfl, hbytes, rfl⟩
      · refine .inl ⟨rfl, b :: body, after, by rw [hbytes]; rfl, hfirst body _ hbytes hbody, ?_⟩
        rw [List.length_cons]
        omega
      · refine .inr ⟨rfl, hfirst rest [] (by simp) hbytes, ?_⟩
        rw [List.length_cons]
        omega

theorem stringEnd_length (seen : Nat) (done bytes : List UInt8) :
    seen ≤ (stringEnd seen done bytes).1 ∧ (stringEnd seen done bytes).1 ≤ seen + bytes.length := by
  fun_induction stringEnd seen done bytes <;> simp_all <;> omega


/-- How a piece stands at the front of a source: what it takes, and what
follows. -/
inductive Front : Piece → List UInt8 → List UInt8 → Prop
  | blank {lexeme after : List UInt8} : lexeme ≠ [] → (∀ b ∈ lexeme, Byte.isBlank b = true) →
      Front (.blank lexeme.length) lexeme after
  | lineComment {body after : List UInt8} : 10 ∉ body → (∀ b ∈ after.head?, b = 10) →
      Front (.lineComment (body.length + 2)) (47 :: 47 :: body) after
  | closedComment {body after : List UInt8} : ¬[42, 47] <:+: body →
      Front (.blockComment (body.length + 4) true) (47 :: 42 :: (body ++ [42, 47])) after
  | openComment {body : List UInt8} : ¬[42, 47] <:+: body →
      Front (.blockComment (body.length + 2) false) (47 :: 42 :: body) []
  | numeral {n : Numeral} {after : List UInt8} : n.whole ≠ [] → Numeral.scan (n.text ++ after) = n →
      Front (.numeral n) n.text after
  | word {lexeme after : List UInt8} : Byte.formWord lexeme = true →
      (∀ b ∈ after.head?, Byte.isWordPart b = false) → Front (.word lexeme) lexeme after
  | string {body content after : List UInt8} {closed : Bool} :
      Front (.string (body.length + 1) content closed) (34 :: body) after
  | char {body after : List UInt8} {value : UInt8} {fault : Option LexFault} :
      fault ∈ [none, some .openChar, some .emptyChar] →
        Front (.char (body.length + 1) value fault) (39 :: body) after
  | punct {mark : Punct} {after : List UInt8} :
      Punct.atFront? (Text.bytes mark.spelling ++ after) = some mark →
        Front (.punct mark) (Text.bytes mark.spelling) after
  | strayChar {c : Char} {after : List UInt8} :
      (∀ b ∈ String.utf8EncodeChar c, Byte.isBlank b = false ∧ Byte.isWordPart b = false) →
        Front (.strayChar c) (String.utf8EncodeChar c) after
  | strayByte {b : UInt8} {after : List UInt8} :
      Byte.isBlank b = false ∧ Byte.isWordPart b = false →
        Text.firstChar? (b :: after) = none → Front (.strayByte b) [b] after

def StandsIn (p : Piece) (bytes : List UInt8) : Prop :=
  ∃ lexeme after, bytes = lexeme ++ after ∧ p.length = lexeme.length ∧ Front p lexeme after

variable {b : UInt8} {bytes rest : List UInt8}

theorem standsIn_blank (hb : Byte.isBlank b = true) :
    (blank ((b :: rest).takeWhile Byte.isBlank).length).StandsIn (b :: rest) := by
  refine ⟨_, _, List.takeWhile_append_dropWhile.symm, rfl, .blank ?_ ?_⟩
  · rw [List.takeWhile_cons_of_pos hb]
    exact List.cons_ne_nil _ _
  · exact List.all_eq_true.mp List.all_takeWhile

theorem standsIn_lineComment :
    (lineComment ((47 :: 47 :: rest).takeWhile (· != 10)).length).StandsIn (47 :: 47 :: rest) := by
  have htake : (47 :: 47 :: rest).takeWhile (· != 10) = 47 :: 47 :: rest.takeWhile (· != 10) := rfl
  refine ⟨47 :: 47 :: rest.takeWhile (· != 10), rest.dropWhile (· != 10), ?_, ?_, ?_⟩
  · rw [List.cons_append, List.cons_append, List.takeWhile_append_dropWhile]
  · rw [htake, length]
  · rw [htake]
    apply Front.lineComment
    · intro hmem
      have hother := List.all_eq_true.mp List.all_takeWhile 10 hmem
      simp at hother
    · intro d hd
      simpa using head_dropWhile (· != 10) rest d hd

theorem standsIn_blockComment {n : Nat} {closed : Bool} (h : blockEnd 2 rest = (n, closed)) :
    (blockComment n closed).StandsIn (47 :: 42 :: rest) := by
  rcases blockEnd_cases h with ⟨rfl, body, after, rfl, hbody, rfl⟩ | ⟨rfl, hbody, rfl⟩
  · refine ⟨47 :: 42 :: (body ++ [42, 47]), after, by simp, by simp [length]; omega, ?_⟩
    have hlength : 2 + body.length + 2 = body.length + 4 := by omega
    rw [hlength]
    exact .closedComment hbody
  · refine ⟨47 :: 42 :: rest, [], by simp, by simp [length]; omega, ?_⟩
    rw [Nat.add_comm]
    exact .openComment hbody

theorem standsIn_numeral (hb : Byte.isDigit b = true) :
    (numeral (Numeral.scan (b :: rest))).StandsIn (b :: rest) := by
  obtain ⟨after, hafter⟩ := Numeral.text_scan_prefix (b :: rest)
  refine ⟨_, after, hafter.symm, (Numeral.length_text _).symm, .numeral ?_ ?_⟩
  · change (b :: rest).takeWhile Byte.isDigit ≠ []
    rw [List.takeWhile_cons_of_pos hb]
    exact List.cons_ne_nil _ _
  · rw [hafter]

theorem standsIn_word (hb : Byte.isWordStart b = true) :
    (word ((b :: rest).takeWhile Byte.isWordPart)).StandsIn (b :: rest) := by
  refine ⟨_, _, List.takeWhile_append_dropWhile.symm, rfl, .word ?_ (head_dropWhile _ _)⟩
  rw [List.takeWhile_cons_of_pos (Byte.isWordPart_of_start hb), Byte.formWord, hb]
  exact List.all_takeWhile

/-- What is known of a literal is only its opening quote and its length. -/
theorem standsIn_string {content : List UInt8} {closed : Bool} {n : Nat}
    (h : stringEnd 1 [] rest = (n, content, closed)) :
    (string n content closed).StandsIn (34 :: rest) := by
  obtain ⟨hpos, hle⟩ := stringEnd_length 1 [] rest
  rw [h] at hpos hle
  obtain ⟨k, rfl⟩ : ∃ k, n = k + 1 := ⟨n - 1, by omega⟩
  have hk : (rest.take k).length = k := by
    rw [List.length_take]
    omega
  refine ⟨34 :: rest.take k, rest.drop k, by simp, by simp [length, hk], ?_⟩
  conv => arg 1; rw [← hk]
  exact .string


/-- What a char literal can be: its length, its value and its fault. -/
theorem charLiteral_cases (rest : List UInt8) :
    ∃ (n : Nat) (value : UInt8) (fault : Option LexFault), n ≤ rest.length ∧
      fault ∈ [none, some .openChar, some .emptyChar] ∧
        charLiteral rest = char (n + 1) value fault := by
  have hend (taken : Nat) (value : UInt8) (more : List UInt8) :
      ∃ (n : Nat) (fault : Option LexFault), n ≤ taken + more.length ∧
        fault ∈ [none, some .openChar, some .emptyChar] ∧
          charEnd (taken + 1) value more = char (n + 1) value fault := by
    unfold charEnd
    split
    · next hquote =>
      cases more with
      | nil => cases hquote
      | cons d more => exact ⟨taken + 1, none, by simp, by simp, rfl⟩
    · exact ⟨taken, _, by omega, by simp, rfl⟩
  unfold charLiteral
  split
  · exact ⟨0, 0, _, Nat.le_refl _, by simp, rfl⟩
  · next b rest =>
    split
    · exact ⟨0, 0, _, Nat.zero_le _, by simp, rfl⟩
    · split
      · exact ⟨1, 0, _, by simp, by simp, rfl⟩
      · split
        · split
          · exact ⟨1, 0, _, by simp, by simp, rfl⟩
          · next e more =>
            obtain ⟨n, fault, hn, hfault, hpiece⟩ := hend 2 (Byte.unescape e) more
            exact ⟨n, _, fault, by simp; omega, hfault, hpiece⟩
        · obtain ⟨n, fault, hn, hfault, hpiece⟩ := hend 1 b rest
          exact ⟨n, _, fault, by simp; omega, hfault, hpiece⟩

theorem standsIn_char (rest : List UInt8) : (charLiteral rest).StandsIn (39 :: rest) := by
  obtain ⟨n, value, fault, hn, hfault, hpiece⟩ := charLiteral_cases rest
  have hk : (rest.take n).length = n := List.length_take_of_le hn
  refine ⟨39 :: rest.take n, rest.drop n, by simp, by simp [hpiece, length, hk], ?_⟩
  rw [hpiece]
  conv => arg 1; rw [← hk]
  exact .char hfault

theorem standsIn_punct {mark : Punct} (h : Punct.atFront? bytes = some mark) :
    (punct mark).StandsIn bytes := by
  obtain ⟨entry, hfind, rfl⟩ := Option.map_eq_some_iff.mp h
  have hprefix := List.find?_some hfind
  obtain ⟨after, hafter⟩ := List.isPrefixOf_iff_prefix.mp hprefix
  have hentry : entry.1 = Text.bytes entry.2.spelling := by
    have hmem := List.mem_of_find?_eq_some hfind
    obtain ⟨mark, -, rfl⟩ := List.mem_map.mp hmem
    rfl
  rw [hentry] at hafter
  refine ⟨_, after, hafter.symm, rfl, .punct ?_⟩
  rw [hafter]
  exact h


/-- A stray character is a whole one at the front. -/
theorem standsIn_strayChar {c : Char} (hblank : Byte.isBlank b = false)
    (hpart : Byte.isWordPart b = false) (h : Text.firstChar? (b :: rest) = some c) :
    (strayChar c).StandsIn (b :: rest) := by
  obtain ⟨after, hafter⟩ := Text.firstChar?_eq_some_iff.mp h
  refine ⟨_, after, hafter.symm, (String.length_utf8EncodeChar c).symm, .strayChar ?_⟩
  rcases Text.utf8EncodeChar_cases c with ⟨d, hd, -⟩ | ⟨d, ds, hd, hhigh⟩
  · rw [hd] at hafter ⊢
    cases hafter
    simp [hblank, hpart]
  · rw [hd]
    intro e he
    have hhigh := hhigh e he
    constructor
    · cases hblank : Byte.isBlank e with
      | false => rfl
      | true =>
        rcases Byte.blank_cases hblank with rfl | rfl | rfl | rfl | rfl <;>
          exact absurd hhigh (by decide)
    · cases hpart : Byte.isWordPart e with
      | false => rfl
      | true =>
        have hlow := Byte.lt_of_part hpart
        omega

/-- A reader finds what stands at the front. -/
theorem standsIn_of_atFront? {p : Piece} (h : atFront? bytes = some p) : p.StandsIn bytes := by
  cases bytes with
  | nil => cases h
  | cons b rest =>
    rw [atFront?] at h
    by_cases hblank : Byte.isBlank b = true
    · rw [if_pos hblank] at h
      cases h
      exact standsIn_blank hblank
    rw [if_neg hblank] at h
    by_cases hline : b = 47 ∧ rest.head? = some 47
    · rw [if_pos hline] at h
      obtain ⟨rfl, hslash⟩ := hline
      obtain ⟨more, rfl⟩ := List.head?_eq_some_iff.mp hslash
      cases h
      exact standsIn_lineComment
    rw [if_neg hline] at h
    by_cases hblock : b = 47 ∧ rest.head? = some 42
    · rw [if_pos hblock] at h
      obtain ⟨rfl, hstar⟩ := hblock
      obtain ⟨more, rfl⟩ := List.head?_eq_some_iff.mp hstar
      cases h
      exact standsIn_blockComment rfl
    rw [if_neg hblock] at h
    by_cases hdigit : Byte.isDigit b = true
    · rw [if_pos hdigit] at h
      cases h
      exact standsIn_numeral hdigit
    rw [if_neg hdigit] at h
    by_cases hstart : Byte.isWordStart b = true
    · rw [if_pos hstart] at h
      cases h
      exact standsIn_word hstart
    rw [if_neg hstart] at h
    by_cases hquote : b = 34
    · rw [if_pos hquote] at h
      cases h
      rw [hquote]
      exact standsIn_string rfl
    rw [if_neg hquote] at h
    by_cases htick : b = 39
    · rw [if_pos htick] at h
      cases h
      rw [htick]
      exact standsIn_char rest
    rw [if_neg htick] at h
    cases hmark : Punct.atFront? (b :: rest) with
    | some mark =>
      rw [hmark] at h
      cases h
      exact standsIn_punct hmark
    | none =>
      rw [hmark] at h
      have hblank : Byte.isBlank b = false := by simpa using hblank
      have hpart : Byte.isWordPart b = false := by simp_all [Byte.isWordPart]
      cases hchar : Text.firstChar? (b :: rest) with
      | some c =>
        rw [hchar] at h
        cases h
        exact standsIn_strayChar hblank hpart hchar
      | none =>
        rw [hchar] at h
        cases h
        exact ⟨[b], rest, rfl, rfl, .strayByte ⟨hblank, hpart⟩ hchar⟩

/-- Every piece takes a byte. -/
theorem Front.ne_nil {p : Piece} {lexeme after : List UInt8} (h : Front p lexeme after) :
    lexeme ≠ [] := by
  cases h with
  | blank hne _ => exact hne
  | numeral hne _ =>
    intro hnil
    exact hne (List.append_eq_nil_iff.mp hnil).1
  | word hword _ =>
    rintro rfl
    cases hword
  | @punct mark _ _ =>
    obtain ⟨b, bytes, hbytes, -⟩ := mark.spelling_starts
    rw [hbytes]
    exact List.cons_ne_nil _ _
  | strayChar _ => exact String.utf8EncodeChar_ne_nil
  | _ => exact List.cons_ne_nil _ _

theorem length_pos_of_atFront? {p : Piece} (h : atFront? bytes = some p) : 0 < p.length := by
  obtain ⟨lexeme, after, -, hlength, hfront⟩ := standsIn_of_atFront? h
  rw [hlength]
  exact List.length_pos_iff.mpr hfront.ne_nil

theorem length_le_of_atFront? {p : Piece} (h : atFront? bytes = some p) :
    p.length ≤ bytes.length := by
  obtain ⟨lexeme, after, rfl, hlength, -⟩ := standsIn_of_atFront? h
  rw [hlength, List.length_append]
  omega

theorem atFront?_eq_none : atFront? bytes = none ↔ bytes = [] := by
  constructor
  · intro h
    cases bytes with
    | nil => rfl
    | cons b rest =>
      unfold atFront? at h
      grind
  · rintro rfl
    rfl

end Piece

end StagedCompiler
