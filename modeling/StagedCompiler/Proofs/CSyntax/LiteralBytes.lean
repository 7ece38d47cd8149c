import StagedCompiler.Proofs.CSyntax.Spelling

/-!
Literals of the generated C give their bytes back. A literal is printable ASCII
on one line, C takes it for a single token whatever stands behind it, and the
token has the bytes that the literal was written for. Only trigraphs of a text
get in the way, as C replaces them before it looks for literals.
-/

namespace StagedCompiler.CSyntax

open Target.Literal (escape octalDigit)

/-! ### Trigraphs of a text -/

/-- Somewhere in the text two question marks and a third character stand for
another character. -/
def HasTrigraph (text : String) : Prop :=
  ∃ c, (trigraph? c).isSome = true ∧ ['?', '?', c] <:+: text.toList

theorem isSome_trigraphAt? (text : List Char) :
    (trigraphAt? text).isSome = true ↔
      ∃ c, (trigraph? c).isSome = true ∧ ['?', '?', c] <+: text := by
  rcases text with _ | ⟨a, _ | ⟨b, _ | ⟨c, rest⟩⟩⟩
  · simp [trigraphAt?]
  · simp [trigraphAt?, List.cons_prefix_cons]
  · simp [trigraphAt?, List.cons_prefix_cons]
  · simp only [trigraphAt?, List.cons_prefix_cons, List.nil_prefix, and_true]
    constructor
    · intro h
      split at h
      · next hmarks => exact ⟨c, h, hmarks.1.symm, hmarks.2.symm, rfl⟩
      · cases h
    · rintro ⟨c, hc, rfl, rfl, rfl⟩
      exact hc

theorem trigraphFree_eq_false_iff (text : String) :
    trigraphFree text.toList = false ↔ HasTrigraph text := by
  unfold HasTrigraph
  generalize text.toList = chars
  induction chars with
  | nil => simp [trigraphFree]
  | cons c chars ih =>
    rw [trigraphFree, Bool.and_eq_false_iff, Option.isNone_eq_false_iff, isSome_trigraphAt?, ih]
    simp only [List.infix_cons_iff, and_or_left, exists_or]

instance (text : String) : Decidable (HasTrigraph text) :=
  decidable_of_iff _ (trigraphFree_eq_false_iff text)

/-! ### Literals among other text -/

/-- Behind a text without trigraphs, and without `?` at its end, trigraphs are
replaced as if it were not there. -/
theorem replaceTrigraphs_append {text : List Char} (h : trigraphFree text = true)
    (hlast : ∀ c ∈ text.getLast?, c ≠ '?') (rest : List Char) :
    replaceTrigraphs 0 (text ++ rest) = text ++ replaceTrigraphs 0 rest := by
  induction text with
  | nil => rfl
  | cons c text ih =>
    rw [trigraphFree, Bool.and_eq_true, Option.isNone_iff_eq_none] at h
    have hfront := trigraphAt?_append rest h.1 hlast (List.cons_ne_nil _ _)
    have hbehind : ∀ d ∈ text.getLast?, d ≠ '?' := by
      intro d hd
      exact hlast d (by rw [List.getLast?_cons, Option.mem_def.mp hd]; rfl)
    rw [List.cons_append] at hfront ⊢
    rw [replaceTrigraphs, hfront, ih h.2 hbehind]
    rfl

/-- Lines are joined behind a text as if it were not there, unless it ends in a
backslash. -/
theorem joinLines_append {text : List Char} (h : spliceFree text = true)
    (hlast : ∀ c ∈ text.getLast?, c ≠ '\\') (rest : List Char) :
    joinLines 0 (text ++ rest) = text ++ joinLines 0 rest := by
  induction text with
  | nil => rfl
  | cons c text ih =>
    rw [spliceFree, Bool.and_eq_true] at h
    have hfront : ¬(c = '\\' ∧ (text ++ rest).head? = some '\n') := by
      rintro ⟨hback, hline⟩
      cases text with
      | nil => exact hlast c rfl hback
      | cons d text =>
        cases hline
        simp [hback] at h
    have hbehind : ∀ d ∈ text.getLast?, d ≠ '\\' := by
      intro d hd
      exact hlast d (by rw [List.getLast?_cons, Option.mem_def.mp hd]; rfl)
    rw [List.cons_append, joinLines, if_neg hfront, ih h.2 hbehind]
    rfl

/-- Preparation passes over a quiet text. -/
theorem Quiet.prepare_append {text : List Char} (h : Quiet text) (rest : List Char) :
    prepare (text ++ rest) = text ++ prepare rest := by
  have htrigraphs := replaceTrigraphs_append h.trigraphFree (fun c hc => (h.last c hc).1) rest
  rw [prepare, htrigraphs, joinLines_append h.spliceFree (fun c hc => (h.last c hc).2)]
  rfl

/-- The text is one token of C, alone and in front of any other text. -/
structure IsToken (text : String) (l : Lexeme) : Prop where
  alone : lexemes? text = some [l]
  ahead (rest : List Char) : prepare (text.toList ++ rest) = text.toList ++ prepare rest ∧
    Piece.atFront? (prepare (text.toList ++ rest)) = some ⟨some l, text.toList.length⟩

theorem Spells.isToken {text : String} {l : Lexeme} {next : Char → Prop}
    (h : Spells text.toList [l] next)
    (hpiece : ∀ rest, Piece.atFront? (text.toList ++ rest) = some ⟨some l, text.toList.length⟩) :
    IsToken text l where
  alone := h.lexemes?_eq
  ahead rest := by
    have hrest := h.quiet.prepare_append rest
    rw [hrest]
    exact ⟨rfl, hpiece _⟩

/-! ### Printable literals -/

def Printable (text : String) : Prop :=
  ∀ c ∈ text.toList, 32 ≤ c.toNat ∧ c.toNat ≤ 126

theorem printable_octalDigit (n : Nat) :
    32 ≤ (octalDigit n).toNat ∧ (octalDigit n).toNat ≤ 126 := by
  have hall : ∀ k < 8, 32 ≤ (Char.ofNat (48 + k)).toNat ∧ (Char.ofNat (48 + k)).toNat ≤ 126 := by
    decide
  exact hall (n % 8) (Nat.mod_lt n (by decide))

/-- A byte is escaped into printable ASCII characters. -/
theorem printable_escape {quote : UInt8} (hquote : quote = 34 ∨ quote = 39) (b : UInt8) :
    ∀ c ∈ escape quote b, 32 ≤ c.toNat ∧ c.toNat ≤ 126 := by
  rw [escape]
  split_ifs with hn hr ht hb hq hprint
  iterate 4 simp
  · rw [hq]
    rcases hquote with rfl | rfl
    · simp
    · simp
  · intro c hc
    rw [List.mem_singleton.mp hc, Text.toNat_ofNat_byte]
    exact ⟨UInt8.le_iff_toNat_le.mp hprint.1, UInt8.le_iff_toNat_le.mp hprint.2⟩
  · rw [List.forall_mem_cons, List.forall_mem_cons, List.forall_mem_cons,
      List.forall_mem_singleton]
    exact ⟨by decide, printable_octalDigit _, printable_octalDigit _, printable_octalDigit _⟩

theorem printable_string (text : String) : Printable (Target.Literal.string text) := by
  rw [Printable, toList_string]
  simp only [List.forall_mem_append, List.forall_mem_singleton, List.forall_mem_flatMap]
  exact ⟨by decide, fun b _ => printable_escape (.inl rfl) b, by decide⟩

theorem printable_char (value : UInt8) : Printable (Target.Literal.char value) := by
  rw [Printable, toList_char]
  simp only [List.forall_mem_append, List.forall_mem_singleton]
  exact ⟨by decide, printable_escape (.inr rfl) value, by decide⟩

/-- Literals are printable, and C reads the bytes back that they were written
for: those of a text in double quotes if it has no trigraph, and any byte in
single quotes. -/
theorem literals_decode :
    (∀ text : String, ¬HasTrigraph text → Printable (Target.Literal.string text) ∧
      IsToken (Target.Literal.string text) (.string (Text.bytes text))) ∧
    ∀ b : UInt8, Printable (Target.Literal.char b) ∧
      IsToken (Target.Literal.char b) (.char b) := by
  constructor
  · intro text htext
    rw [← trigraphFree_eq_false_iff, Bool.not_eq_false] at htext
    exact ⟨printable_string text, (spells_string htext).isToken (atFront?_string text)⟩
  · intro b
    exact ⟨printable_char b, (spells_char b).isToken (atFront?_char b)⟩

/-- An octal escape before a digit, a backslash before a quote, and question
marks before both. -/
theorem literals_decode_mixed :
    ¬HasTrigraph "é7\\\"??\\??\"??" ∧
      Target.Literal.string "é7\\\"??\\??\"??" = "\"\\303\\2517\\\\\\\"??\\\\??\\\"??\"" ∧
      IsToken (Target.Literal.string "é7\\\"??\\??\"??")
        (.string [195, 169, 55, 92, 34, 63, 63, 92, 63, 63, 34, 63, 63]) ∧
      Target.Literal.char 39 = "'\\''" ∧ IsToken (Target.Literal.char 39) (.char 39) := by
  have hfree : ¬HasTrigraph "é7\\\"??\\??\"??" := by decide
  refine ⟨hfree, by decide, ?_, by decide, (literals_decode.2 39).2⟩
  exact (literals_decode.1 _ hfree).2

/-- What a trigraph does to a literal. -/
example : lexemes? (Target.Literal.string "??=") = some [.string [35]] := by decide

end StagedCompiler.CSyntax
