import Mathlib.Tactic.SplitIfs
import StagedCompiler.Operator
import StagedCompiler.Proofs.CSyntax.Tokens
import StagedCompiler.Proofs.Lexer.TextBytes
import StagedCompiler.Target.Literal

/-!
How single tokens of C are spelled: punctuators, words, numbers, and literals
between quotes.
-/

namespace StagedCompiler.CSyntax

/-! ### Blanks and punctuators -/

def AnyNext (_ : Char) : Prop := True

theorem spells_blank : Spells [' '] [] AnyNext :=
  .of_piece none (quiet_of_plain (by decide)) (by simp) fun _ _ => rfl

/-- A punctuator that no other one begins with. -/
theorem spells_mark {text : List Char} {m : Mark}
    (hplain : (text.all fun c => c != '?' && c != '\\') = true) (hne : text ≠ [])
    (h : ∀ rest, Piece.atFront? (text ++ rest) = some ⟨some (.mark m), text.length⟩) :
    Spells text [.mark m] AnyNext :=
  .of_piece (some (.mark m)) (quiet_of_plain hplain) hne fun rest _ => h rest

/-- The characters that are punctuators and begin no other one. -/
def Mark.singles : List (Char × Mark) :=
  [('(', .lparen), (')', .rparen), ('[', .lbracket), (']', .rbracket), ('\x7b', .lbrace),
   ('\x7d', .rbrace), (',', .comma), (';', .semicolon)]

theorem spells_single (c : Char) (m : Mark) (h : (c, m) ∈ Mark.singles) :
    Spells [c] [.mark m] AnyNext := by
  simp only [Mark.singles, List.mem_cons, Prod.mk.injEq, List.not_mem_nil, or_false] at h
  rcases h with ⟨rfl, rfl⟩ | ⟨rfl, rfl⟩ | ⟨rfl, rfl⟩ | ⟨rfl, rfl⟩ | ⟨rfl, rfl⟩ | ⟨rfl, rfl⟩ |
    ⟨rfl, rfl⟩ | ⟨rfl, rfl⟩ <;> exact spells_mark (by decide) (by simp) fun _ => rfl

theorem spells_arrow : Spells ['-', '>'] [.mark .arrow] AnyNext :=
  spells_mark (by decide) (by simp) fun _ => rfl

def opens (c : Char) : Bool :=
  isWordStart c || c.isDigit || c == '"' || c == '\'' || c == '('

def Mark.later : List Char :=
  Mark.spellings.flatMap (·.1.tail)

theorem isPrefixOf_append_cons {p : List Char} {c : Char} (h : c ∉ p) (text rest : List Char) :
    p.isPrefixOf (text ++ c :: rest) = p.isPrefixOf text := by
  induction p generalizing text with
  | nil => simp
  | cons a p ih =>
    rw [List.mem_cons, not_or] at h
    cases text with
    | nil => simp [List.isPrefixOf, Ne.symm h.1]
    | cons b text => simp only [List.cons_append, List.isPrefixOf, ih h.2]

theorem find?_congr {α : Type} {p q : α → Bool} {xs : List α} (h : ∀ x ∈ xs, p x = q x) :
    xs.find? p = xs.find? q := by
  induction xs with
  | nil => rfl
  | cons x xs ih =>
    rw [List.find?_cons, List.find?_cons, h x (by simp),
      ih fun y hy => h y (List.mem_cons_of_mem _ hy)]

/-- A punctuator ends before a character that none goes on with. -/
theorem Mark.atFront?_append {c : Char} (h : c ∉ Mark.later) (a : Char) (text rest : List Char) :
    Mark.atFront? (a :: text ++ c :: rest) = Mark.atFront? (a :: text) := by
  rw [Mark.atFront?, Mark.atFront?]
  apply find?_congr
  intro entry hentry
  have hlater : c ∉ entry.1.tail := fun hc => h (List.mem_flatMap.mpr ⟨entry, hentry, hc⟩)
  cases hspelling : entry.1 with
  | nil => simp
  | cons b spelling =>
    rw [hspelling, List.tail_cons] at hlater
    simp only [List.cons_append, List.isPrefixOf, isPrefixOf_append_cons hlater text rest]

theorem not_mem_of_all_not {p : Char → Bool} {others : List Char} {c : Char}
    (hall : (others.all fun d => !p d) = true) (h : p c = true) : c ∉ others := by
  intro hc
  have hnot := List.all_eq_true.mp hall c hc
  rw [h] at hnot
  cases hnot

theorem not_later_of_opens {c : Char} (h : opens c = true) : c ∉ Mark.later :=
  not_mem_of_all_not (by decide) h

/-- A character at which a punctuator and nothing else begins. -/
def beginsMark (a : Char) : Bool :=
  !isBlank a && a != '/' && !a.isDigit && a != '.' && !isWordStart a && a != '"' && a != '\''

theorem atFront?_of_beginsMark {a : Char} (h : beginsMark a = true) (rest : List Char) :
    Piece.atFront? (a :: rest) =
      (Mark.atFront? (a :: rest)).map fun entry => ⟨some (.mark entry.2), entry.1.length⟩ := by
  simp only [beginsMark, Bool.and_eq_true, Bool.not_eq_true', bne_iff_ne, ne_eq] at h
  simp [Piece.atFront?, h]

def unaryMark : UnaryOp → Mark
  | .not => .bang
  | .neg => .minus
  | .deref => .star
  | .ref | .refMut => .amp

theorem spells_unary (op : UnaryOp) :
    Spells op.text.toList [.mark (unaryMark op)] (opens · = true) := by
  apply Spells.of_piece (some (.mark (unaryMark op)))
  · cases op <;> exact quiet_of_plain (by decide)
  · cases op <;> decide
  · intro rest h
    cases rest with
    | nil => cases op <;> rfl
    | cons c rest =>
      have hc := not_later_of_opens (h c rfl)
      have hmark (a : Char) : Mark.atFront? ([a] ++ c :: rest) = Mark.atFront? [a] :=
        Mark.atFront?_append hc a [] rest
      cases op <;>
        exact (atFront?_of_beginsMark (by decide) (c :: rest)).trans (congrArg _ (hmark _))

def binaryMark : BinaryOp → Mark
  | .or => .orOr
  | .and => .andAnd
  | .bitOr => .pipe
  | .bitXor => .caret
  | .bitAnd => .amp
  | .eq => .eqEq
  | .ne => .bangEq
  | .lt => .lt
  | .le => .le
  | .gt => .gt
  | .ge => .ge
  | .shl => .shl
  | .shr => .shr
  | .add => .plus
  | .sub => .minus
  | .mul => .star
  | .div => .slash
  | .rem => .percent

/-- A punctuator at the end or before a blank. -/
theorem spells_operator {text : List Char} {mark : Mark}
    (hplain : (text.all fun c => c != '?' && c != '\\') = true) (hne : text ≠ [])
    (hend : Piece.atFront? text = some ⟨some (.mark mark), text.length⟩)
    (hblank : ∀ rest, Piece.atFront? (text ++ ' ' :: rest) =
      some ⟨some (.mark mark), text.length⟩) : Spells text [.mark mark] (· = ' ') := by
  apply Spells.of_piece (some (.mark mark)) (quiet_of_plain hplain) hne
  intro rest h
  cases rest with
  | nil =>
    rw [List.append_nil]
    exact hend
  | cons c rest =>
    rw [h c rfl]
    exact hblank rest

theorem spells_binary (op : BinaryOp) :
    Spells op.text.toList [.mark (binaryMark op)] (· = ' ') := by
  cases op <;> exact spells_operator (by decide) (by decide) rfl fun _ => rfl

/-! ### Words -/

def isWord : List Char → Bool
  | [] => false
  | c :: rest => isWordStart c && rest.all isWordPart

/-- A character that ends a word and makes it no encoding. -/
def endsWord (c : Char) : Bool :=
  !isWordPart c && c != '"' && c != '\''

theorem isWordPart_of_isWordStart {c : Char} (h : isWordStart c = true) : isWordPart c = true := by
  simp only [isWordStart, Bool.or_eq_true] at h
  rcases h with h | h <;> simp [isWordPart, Char.isAlphanum, h]

theorem isWordStart_excludes {c : Char} (h : isWordStart c = true) :
    c ∉ [' ', '\t', '\n', '\x0b', '\x0c', '/', '.', '"', '\''] :=
  not_mem_of_all_not (by decide) h

theorem isAlpha_iff {c : Char} :
    c.isAlpha = true ↔ 65 ≤ c.toNat ∧ c.toNat ≤ 90 ∨ 97 ≤ c.toNat ∧ c.toNat ≤ 122 := by
  have h : c.isAlpha = (decide (c.val ≥ 65 ∧ c.val ≤ 90) ||
      (decide (c.val ≥ 97) && decide (c.val ≤ 122))) := rfl
  rw [h]
  simp [UInt32.le_iff_toNat_le, ← Char.toNat_val]

theorem not_isDigit_of_isWordStart {c : Char} (h : isWordStart c = true) : c.isDigit = false := by
  rw [isWordStart, Bool.or_eq_true, isAlpha_iff, beq_iff_eq] at h
  rw [← Bool.not_eq_true, Text.isDigit_iff]
  rcases h with h | rfl
  · omega
  · decide

/-- A word at the front is taken whole. -/
theorem atFront?_word {word rest : List Char} (h : isWord word = true)
    (hrest : ∀ c ∈ rest.head?, endsWord c = true) :
    Piece.atFront? (word ++ rest) = some ⟨some (.word (String.ofList word)), word.length⟩ := by
  cases word with
  | nil => cases h
  | cons c word =>
    rw [isWord, Bool.and_eq_true] at h
    obtain ⟨hstart, hall⟩ := h
    have hparts : (word ++ rest).takeWhile isWordPart = word := by
      apply Text.takeWhile_append_head hall
      intro d hd
      have hends := hrest d hd
      simp only [endsWord, Bool.and_eq_true, Bool.not_eq_true'] at hends
      exact hends.1.1
    have hquote : (rest.head? == some '"' || rest.head? == some '\'') = false := by
      rw [Bool.or_eq_false_iff, beq_eq_false_iff_ne, beq_eq_false_iff_ne]
      constructor
      · intro hd
        exact absurd (hrest _ hd) (by decide)
      · intro hd
        exact absurd (hrest _ hd) (by decide)
    have hexcludes := isWordStart_excludes hstart
    have hdigit := not_isDigit_of_isWordStart hstart
    simp only [List.mem_cons, not_or] at hexcludes
    simp [Piece.atFront?, isBlank, hexcludes, hdigit, hstart, hparts, hquote]

/-- Neither words nor numbers start a comment. -/
theorem quiet_of_number {text : List Char}
    (h : ∀ c ∈ text, isWordPart c = true ∨ c = '.' ∨ c = '-') : Quiet text := by
  apply quiet_of_plain
  rw [List.all_eq_true]
  intro c hc
  rw [Bool.and_eq_true, bne_iff_ne, bne_iff_ne]
  constructor
  · rintro rfl
    exact absurd (h _ hc) (by decide)
  · rintro rfl
    exact absurd (h _ hc) (by decide)

/-- A word is cut into the one token that it is. -/
theorem spells_word {word : String} (h : isWord word.toList = true) :
    Spells word.toList [.word word] (endsWord · = true) := by
  apply Spells.of_piece (some (.word word))
  · apply quiet_of_number
    intro c hc
    left
    cases hword : word.toList with
    | nil =>
      rw [hword] at hc
      cases hc
    | cons d rest =>
      rw [hword, isWord, Bool.and_eq_true, List.all_eq_true] at h
      rw [hword] at hc
      rcases List.mem_cons.mp hc with rfl | hc
      · exact isWordPart_of_isWordStart h.1
      · exact h.2 c hc
  · intro hnil
    rw [hnil] at h
    cases h
  · intro rest hrest
    rw [atFront?_word h hrest, String.ofList_toList]

theorem spells_dot : Spells ['.'] [.mark .dot] (isWordStart · = true) := by
  apply Spells.of_piece (some (.mark .dot)) (quiet_of_plain (by decide)) (by simp)
  intro rest h
  cases rest with
  | nil => rfl
  | cons c rest =>
    have hc : isWordStart c = true := h c rfl
    have hmark : Mark.atFront? (['.'] ++ c :: rest) = some (['.'], .dot) :=
      Mark.atFront?_append (not_later_of_opens (by simp [opens, hc])) '.' [] rest
    rw [List.singleton_append] at hmark ⊢
    simp [Piece.atFront?, isBlank, isWordStart, not_isDigit_of_isWordStart hc, hmark]

/-! ### Numbers -/

/-- A text that the preprocessor takes for one number. -/
def isNumber : List Char → Bool
  | [] => false
  | c :: rest => c.isDigit && numberTail c rest == rest

/-- A character that ends a number whatever its last character is. -/
def endsNumber (c : Char) : Bool :=
  !isWordPart c && c != '.' && c != '+' && c != '-'

/-- Reading goes on behind a number from its last character. -/
theorem numberTail_append {last : Char} {text : List Char} (h : numberTail last text = text)
    (rest : List Char) :
    ∃ last', numberTail last (text ++ rest) = text ++ numberTail last' rest := by
  induction text generalizing last with
  | nil => exact ⟨last, rfl⟩
  | cons c text ih =>
    rw [numberTail] at h
    rw [List.cons_append, numberTail]
    split at h
    · obtain ⟨last', htail⟩ := ih (List.tail_eq_of_cons_eq h)
      exact ⟨last', by rw [if_pos ‹_›, htail, List.cons_append]⟩
    · rw [if_neg ‹_›]
      split at h
      · obtain ⟨last', htail⟩ := ih (List.tail_eq_of_cons_eq h)
        exact ⟨last', by rw [if_pos ‹_›, htail, List.cons_append]⟩
      · cases h

theorem numberTail_eq_nil {rest : List Char} (last : Char)
    (hrest : ∀ c ∈ rest.head?, endsNumber c = true) : numberTail last rest = [] := by
  cases rest with
  | nil => rfl
  | cons c rest =>
    have hends := hrest c rfl
    simp only [endsNumber, Bool.and_eq_true, Bool.not_eq_true', bne_iff_ne, ne_eq] at hends
    simp [numberTail, hends]

/-- A number is cut into the one token that it is. -/
theorem spells_number {number : List Char} (hquiet : Quiet number) (h : isNumber number = true) :
    Spells number [.number number] (endsNumber · = true) := by
  apply Spells.of_piece (some (.number number)) hquiet
  · rintro rfl
    cases h
  · intro rest hrest
    cases number with
    | nil => cases h
    | cons c number =>
      rw [isNumber, Bool.and_eq_true, beq_iff_eq] at h
      obtain ⟨last, htail⟩ := numberTail_append h.2 rest
      rw [numberTail_eq_nil last hrest, List.append_nil] at htail
      have hexcludes : c ∉ [' ', '\t', '\n', '\x0b', '\x0c', '/'] :=
        not_mem_of_all_not (by decide) h.1
      simp only [List.mem_cons, not_or] at hexcludes
      simp [Piece.atFront?, isBlank, hexcludes, h.1, htail]

/-! ### Literals between quotes -/

open Target.Literal (escape octalDigit)

theorem octalValue?_octalDigit (n : Nat) : octalValue? (octalDigit n) = some (n % 8) := by
  have hall : ∀ k < 8, octalValue? (Char.ofNat (48 + k)) = some k := by decide
  exact hall (n % 8) (Nat.mod_lt n (by decide))

/-- Three digits are all that an octal escape takes in. -/
theorem octalEscape_full (value : Nat) (rest : List Char) :
    octalEscape value 3 rest = (value, 3) := by
  cases rest with
  | nil => rfl
  | cons c rest =>
    rw [octalEscape]
    cases octalValue? c <;> rfl

theorem escape?_octal (b : UInt8) (rest : List Char) :
    escape? (octalDigit (b.toNat / 64) :: octalDigit (b.toNat / 8) :: octalDigit b.toNat :: rest) =
      some (b.toNat, 3) := by
  have hlt := b.toNat_lt
  have hvalue : 8 * (8 * (8 * 0 + b.toNat / 64 % 8) + b.toNat / 8 % 8) + b.toNat % 8 = b.toNat := by
    omega
  simp only [escape?, octalEscape, octalValue?_octalDigit, hvalue]
  simp [octalEscape_full, hlt]

theorem literal?_simple {quote c : Char} {value : Nat} (hquote : quote ≠ '\\')
    (hoctal : octalValue? c = none) (h : simpleEscape? c = some value) (rest : List Char) :
    literal? quote 0 ('\\' :: c :: rest) =
      (literal? quote 0 rest).map fun r => (value.toUInt8 :: r.1, r.2 + 2) := by
  simp [literal?, escape?, hoctal, h, Ne.symm hquote, Function.comp_def]

theorem literal?_octal {quote : Char} (hquote : quote ≠ '\\') (b : UInt8) (rest : List Char) :
    literal? quote 0 ('\\' :: octalDigit (b.toNat / 64) :: octalDigit (b.toNat / 8) ::
        octalDigit b.toNat :: rest) =
      (literal? quote 0 rest).map fun r => (b :: r.1, r.2 + 4) := by
  simp [literal?, escape?_octal, Ne.symm hquote, Function.comp_def]

theorem literal?_plain {quote c : Char} (hquote : c ≠ quote) (hline : c ≠ '\n')
    (hback : c ≠ '\\') (hbyte : c.toNat < 128) (rest : List Char) :
    literal? quote 0 (c :: rest) =
      (literal? quote 0 rest).map fun r => (c.toNat.toUInt8 :: r.1, r.2 + 1) := by
  simp [literal?, hquote, hline, hback, hbyte]

/-- An escaped byte is read back, and the literal goes on behind it. -/
theorem literal?_escape {quote : UInt8} (hquote : quote = 34 ∨ quote = 39) (b : UInt8)
    (rest : List Char) :
    literal? (Char.ofNat quote.toNat) 0 (escape quote b ++ rest) =
      (literal? (Char.ofNat quote.toNat) 0 rest).map fun r =>
        (b :: r.1, r.2 + (escape quote b).length) := by
  have hback : Char.ofNat quote.toNat ≠ '\\' := by
    rcases hquote with rfl | rfl <;> decide
  have hchar (n : UInt8) (h : Char.ofNat b.toNat = Char.ofNat n.toNat) : b = n := by
    have htoNat := congrArg Char.toNat h
    rw [Text.toNat_ofNat_byte, Text.toNat_ofNat_byte] at htoNat
    exact UInt8.toNat_inj.mp htoNat
  rw [escape]
  split_ifs with hn hr ht hb hq hprint
  · rw [hn]
    exact literal?_simple hback rfl rfl rest
  · rw [hr]
    exact literal?_simple hback rfl rfl rest
  · rw [ht]
    exact literal?_simple hback rfl rfl rest
  · rw [hb]
    exact literal?_simple hback rfl rfl rest
  · rw [hq]
    rcases hquote with rfl | rfl
    · exact literal?_simple hback rfl rfl rest
    · exact literal?_simple hback rfl rfl rest
  · have hbyte : (Char.ofNat b.toNat).toNat < 128 := by
      rw [Text.toNat_ofNat_byte]
      exact Nat.lt_of_le_of_lt (UInt8.le_iff_toNat_le.mp hprint.2) (by decide)
    have hplain := literal?_plain (fun h => hq (hchar quote h)) (fun h => hn (hchar 10 h))
      (fun h => hb (hchar 92 h)) hbyte rest
    rw [Text.toNat_ofNat_byte, Nat.toUInt8_eq, UInt8.ofNat_toNat] at hplain
    exact hplain
  · exact literal?_octal hback b rest

/-- Escaped bytes are read back up to the closing quote. -/
theorem literal?_bytes {quote : UInt8} (hquote : quote = 34 ∨ quote = 39) (content : List UInt8)
    (rest : List Char) :
    literal? (Char.ofNat quote.toNat) 0
        (content.flatMap (escape quote) ++ Char.ofNat quote.toNat :: rest) =
      some (content, (content.flatMap (escape quote)).length + 1) := by
  induction content with
  | nil => simp [literal?]
  | cons b content ih =>
    rw [List.flatMap_cons, List.append_assoc, literal?_escape hquote, ih]
    simp
    omega

/-- Each byte stays one character or becomes an escape without question marks. -/
theorem escape_cases (quote b : UInt8) (hquote : quote = 34 ∨ quote = 39) :
    (b.toNat < 128 ∧ escape quote b = [Char.ofNat b.toNat]) ∨
      ∃ more, escape quote b = '\\' :: more ∧ '?' ∉ more ∧ '\n' ∉ more := by
  have hdigit (n : Nat) : octalDigit n ≠ '?' ∧ octalDigit n ≠ '\n' := by
    have hall : ∀ k < 8, Char.ofNat (48 + k) ≠ '?' ∧ Char.ofNat (48 + k) ≠ '\n' := by decide
    exact hall (n % 8) (Nat.mod_lt n (by decide))
  rw [escape]
  split_ifs with hn hr ht hb hq hprint
  · exact .inr ⟨_, rfl, by decide, by decide⟩
  · exact .inr ⟨_, rfl, by decide, by decide⟩
  · exact .inr ⟨_, rfl, by decide, by decide⟩
  · exact .inr ⟨_, rfl, by decide, by decide⟩
  · rw [hq]
    rcases hquote with rfl | rfl
    · exact .inr ⟨_, rfl, by decide, by decide⟩
    · exact .inr ⟨_, rfl, by decide, by decide⟩
  · exact .inl ⟨Nat.lt_of_le_of_lt (UInt8.le_iff_toNat_le.mp hprint.2) (by decide), rfl⟩
  · exact .inr ⟨_, rfl, by simp [Ne.symm (hdigit _).1], by simp [Ne.symm (hdigit _).2]⟩

/-- A character as it is, or some text in its place that starts with a
backslash and has no question mark. -/
def Stays (c : Char) (piece : List Char) : Prop :=
  piece = [c] ∨ ∃ more, piece = '\\' :: more ∧ '?' ∉ more

theorem escape_of_high {b : UInt8} (h : 128 ≤ b.toNat) :
    ∃ more, escape 34 b = '\\' :: more ∧ '?' ∉ more := by
  rcases escape_cases 34 b (.inl rfl) with ⟨hlow, -⟩ | ⟨more, hmore, hquestion, -⟩
  · omega
  · exact ⟨more, hmore, hquestion⟩

theorem stays_escape (c : Char) : Stays c ((String.utf8EncodeChar c).flatMap (escape 34)) := by
  rcases Text.utf8EncodeChar_cases c with ⟨b, hbytes, rfl⟩ | ⟨b, bs, hbytes, hhigh⟩
  · rw [hbytes, List.flatMap_cons, List.flatMap_nil, List.append_nil]
    rcases escape_cases 34 b (.inl rfl) with ⟨-, hsame⟩ | ⟨more, hmore, hquestion, -⟩
    · exact .inl hsame
    · exact .inr ⟨more, hmore, hquestion⟩
  · obtain ⟨more, hmore, hquestion⟩ := escape_of_high (hhigh b (by simp))
    have hrest : '?' ∉ bs.flatMap (escape 34) := by
      rw [List.mem_flatMap]
      rintro ⟨d, hd, hin⟩
      obtain ⟨others, hothers, hnot⟩ := escape_of_high (hhigh d (by simp [hd]))
      rw [hothers] at hin
      exact hnot (by simpa using hin)
    refine .inr ⟨more ++ bs.flatMap (escape 34), ?_, by simp [hquestion, hrest]⟩
    rw [hbytes, List.flatMap_cons, hmore, List.cons_append]

theorem trigraphFree_append {piece rest : List Char} (hpiece : '?' ∉ piece)
    (hrest : trigraphFree rest = true) : trigraphFree (piece ++ rest) = true := by
  induction piece with
  | nil => exact hrest
  | cons c piece ih =>
    rw [List.mem_cons, not_or] at hpiece
    have hfront : trigraphAt? (c :: (piece ++ rest)) = none := by
      rcases piece ++ rest with _ | ⟨a, _ | ⟨b, more⟩⟩ <;> simp [trigraphAt?, Ne.symm hpiece.1]
    rw [List.cons_append, trigraphFree, hfront, ih hpiece.2]
    rfl

/-- Texts in place of characters bring no trigraphs of their own. -/
theorem trigraphFree_flatMap {f : Char → List Char} (hf : ∀ c, Stays c (f c)) {text : List Char}
    (h : trigraphFree text = true) : trigraphFree (text.flatMap f ++ ['"']) = true := by
  induction text with
  | nil => rfl
  | cons c text ih =>
    rw [trigraphFree, Bool.and_eq_true, Option.isNone_iff_eq_none] at h
    have hrest := ih h.2
    rw [List.flatMap_cons, List.append_assoc]
    rcases hf c with hsame | ⟨more, hmore, hquestion⟩
    · -- Three characters decide, and each is the one of the text or a backslash.
      have hfront : trigraphAt? (c :: (text.flatMap f ++ ['"'])) = none := by
        rcases text with _ | ⟨d, text⟩
        · rfl
        · rw [List.flatMap_cons]
          rcases hf d with hd | ⟨more, hmore, -⟩
          · rcases text with _ | ⟨e, text⟩
            · simp [hd, trigraphAt?, trigraph?]
            · rw [List.flatMap_cons]
              rcases hf e with he | ⟨more, hmore, -⟩
              · simpa [hd, he, trigraphAt?] using h.1
              · simp [hd, hmore, trigraphAt?, trigraph?]
          · rw [hmore]
            rcases hX : more ++ text.flatMap f ++ ['"'] with _ | ⟨x, more'⟩
            · simp at hX
            · simp only [List.cons_append, hX, trigraphAt?]
              simp
      rw [hsame, List.singleton_append, trigraphFree, hfront, hrest]
      rfl
    · rw [hmore]
      exact trigraphFree_append (by simpa using hquestion) hrest

theorem spliceFree_of_not_mem {text : List Char} (h : '\n' ∉ text) : spliceFree text = true := by
  induction text with
  | nil => rfl
  | cons c text ih =>
    rw [List.mem_cons, not_or] at h
    have hhead : text.head? ≠ some '\n' := fun hd => h.2 (List.mem_of_mem_head? hd)
    simp [spliceFree, hhead, ih h.2]

theorem lineEnd_not_mem_escape {quote : UInt8} (hquote : quote = 34 ∨ quote = 39) (b : UInt8) :
    '\n' ∉ escape quote b := by
  by_cases hline : b = 10
  · rw [hline, escape, if_pos rfl]
    decide
  · rcases escape_cases quote b hquote with ⟨-, hsame⟩ | ⟨more, hmore, -, hnot⟩
    · rw [hsame, List.mem_singleton]
      intro h
      have htoNat := congrArg Char.toNat h
      rw [Text.toNat_ofNat_byte] at htoNat
      exact hline (UInt8.toNat_inj.mp htoNat.symm)
    · rw [hmore]
      simpa using hnot

theorem toList_string (text : String) : (Target.Literal.string text).toList =
    ['"'] ++ ((Text.bytes text).flatMap (escape 34) ++ ['"']) := by
  simp [Target.Literal.string]

theorem toList_char (value : UInt8) :
    (Target.Literal.char value).toList = ['\''] ++ (escape 39 value ++ ['\'']) := by
  simp [Target.Literal.char]

theorem quiet_string {text : String} (h : trigraphFree text.toList = true) :
    Quiet (Target.Literal.string text).toList := by
  have hbody : trigraphFree ((Text.bytes text).flatMap (escape 34) ++ ['"']) = true := by
    rw [Text.bytes_eq, List.flatMap_assoc]
    exact trigraphFree_flatMap stays_escape h
  rw [toList_string]
  constructor
  · exact trigraphFree_append (by decide) hbody
  · apply spliceFree_of_not_mem
    simp [lineEnd_not_mem_escape]
  · rw [← List.append_assoc]
    simp only [List.getLast?_concat, Option.mem_some]
    rintro c rfl
    decide

theorem quiet_char (value : UInt8) : Quiet (Target.Literal.char value).toList := by
  rw [toList_char]
  constructor
  · apply trigraphFree_append (by decide)
    rcases escape_cases 39 value (.inr rfl) with ⟨-, hsame⟩ | ⟨more, hmore, hquestion, -⟩
    · rw [hsame]
      rfl
    · rw [hmore]
      exact trigraphFree_append (by simpa using hquestion) rfl
  · apply spliceFree_of_not_mem
    simp [lineEnd_not_mem_escape]
  · rw [← List.append_assoc]
    simp only [List.getLast?_concat, Option.mem_some]
    rintro c rfl
    decide

/-- A literal is one token, whatever follows its closing quote. -/
theorem atFront?_string (text : String) (rest : List Char) :
    Piece.atFront? ((Target.Literal.string text).toList ++ rest) =
      some ⟨some (.string (Text.bytes text)), (Target.Literal.string text).toList.length⟩ := by
  have hread := literal?_bytes (.inl rfl) (Text.bytes text) rest
  have hquote : Char.ofNat (34 : UInt8).toNat = '"' := rfl
  rw [hquote] at hread
  rw [toList_string]
  simp [Piece.atFront?, isBlank, isWordStart, hread]

theorem atFront?_char (value : UInt8) (rest : List Char) :
    Piece.atFront? ((Target.Literal.char value).toList ++ rest) =
      some ⟨some (.char value), (Target.Literal.char value).toList.length⟩ := by
  have hread := literal?_bytes (.inr rfl) [value] rest
  have hquote : Char.ofNat (39 : UInt8).toNat = '\'' := rfl
  rw [hquote] at hread
  simp only [List.flatMap_cons, List.flatMap_nil, List.append_nil] at hread
  rw [toList_char]
  simp [Piece.atFront?, isBlank, isWordStart, hread]

/-- The bytes of a text without trigraphs are read back from its literal. -/
theorem spells_string {text : String} (h : trigraphFree text.toList = true) :
    Spells (Target.Literal.string text).toList [.string (Text.bytes text)] AnyNext := by
  apply Spells.of_piece (some (.string (Text.bytes text))) (quiet_string h)
  · simp [toList_string]
  · exact fun rest _ => atFront?_string text rest

/-- Every byte is read back from its literal. -/
theorem spells_char (value : UInt8) :
    Spells (Target.Literal.char value).toList [.char value] AnyNext := by
  apply Spells.of_piece (some (.char value)) (quiet_char value)
  · simp [toList_char]
  · exact fun rest _ => atFront?_char value rest

end StagedCompiler.CSyntax
