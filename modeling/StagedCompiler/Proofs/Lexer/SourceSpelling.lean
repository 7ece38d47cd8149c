import Mathlib.Tactic.SplitIfs
import StagedCompiler.Proofs.Lexer.Runs
import StagedCompiler.Proofs.Lexer.SourceTokens
import StagedCompiler.Proofs.Lexer.TextBytes

/-!
How tokens are written in a source. A `SourceToken` is a token that has a
spelling, and a `Gap` is what may stand between two spellings; each is read back
as the one piece that it was written as, or skipped.
-/

namespace StagedCompiler

/-! ### Tokens and their spellings -/

/-- A letter or an underscore, with letters, digits and underscores after it. -/
def Byte.formWord : List UInt8 → Bool
  | [] => false
  | b :: rest => Byte.isWordStart b && rest.all Byte.isWordPart

/-- A text with the shape of a word that is no keyword. -/
structure Identifier where
  text : String
  shape : Byte.formWord (Text.bytes text) = true
  free (word : Keyword) : word.spelling ≠ text

/-- A token that can be written in a source. Numbers with a fraction or an
exponent are left out, for they have many spellings. -/
inductive SourceToken where
  | keyword (word : Keyword)
  | punct (mark : Punct)
  | ident (name : Identifier)
  | int (value : Nat) (small : value < 0x8000000000000000)
  | str (text : String)
  | char (value : UInt8) (ascii : value.toNat < 128)

def inString (c : Char) : List Char :=
  if c = '"' ∨ c = '\\' then ['\\', c] else [c]

def inChar (value : UInt8) : List Char :=
  if value = 10 then ['\\', 'n']
  else if value = 13 then ['\\', 'r']
  else if value = 9 then ['\\', 't']
  else if value = 0 then ['\\', '0']
  else if value = 92 ∨ value = 39 then ['\\', Char.ofNat value.toNat]
  else [Char.ofNat value.toNat]

namespace SourceToken

def spelling : SourceToken → String
  | keyword word => word.spelling
  | punct mark => mark.spelling
  | ident name => name.text
  | int value _ => toString value
  | str text => String.ofList ('"' :: text.toList.flatMap inString ++ ['"'])
  | char value _ => String.ofList ('\'' :: inChar value ++ ['\''])

def text? : SourceToken → Option String
  | ident name => some name.text
  | str text => some text
  | _ => none

def kind (symbol : String → Symbol) : SourceToken → TokenKind
  | keyword word => .keyword word
  | punct mark => .punct mark
  | ident name => .ident (symbol name.text)
  | int value _ => .int value
  | str text => .str (symbol text)
  | char value _ => .char value

end SourceToken

/-! ### What stands between them -/

/-- Space, tab, line feed, form feed, carriage return. -/
structure Blank where
  char : Char
  blank : char ∈ [' ', '\t', '\n', '\x0c', '\r']

/-- A blank, a line comment with the end of its line, or a closed block comment. -/
inductive Filler where
  | blank (b : Blank)
  | line (text : String) (oneLine : 10 ∉ Text.bytes text)
  | block (text : String) (unclosed : ¬[42, 47] <:+: Text.bytes text)

def Filler.spelling : Filler → String
  | blank b => String.ofList [b.char]
  | line text _ => "//" ++ (text ++ "\n")
  | block text _ => "/*" ++ (text ++ "*/")

def Filler.write : List Filler → String
  | [] => ""
  | filler :: more => filler.spelling ++ write more

/-- What separates two tokens: a blank, and fillers as one likes. -/
structure Gap where
  first : Blank
  more : List Filler

def Gap.spelling (gap : Gap) : String :=
  Filler.write (.blank gap.first :: gap.more)

/-- The source with the given tokens, where `gap i` stands behind token `i`
unless that is the last. -/
def SourceToken.write (gap : Nat → Gap) : List SourceToken → String
  | [] => ""
  | [t] => t.spelling
  | t :: u :: more =>
    t.spelling ++ ((gap 0).spelling ++ write (fun i => gap (i + 1)) (u :: more))

/-! ### Bytes by class -/

namespace Byte

variable {b : UInt8}

theorem blank_cases (h : isBlank b = true) : b = 32 ∨ b = 9 ∨ b = 10 ∨ b = 12 ∨ b = 13 := by
  simpa [isBlank, or_assoc] using h

theorem isBlank_of_part (h : isWordPart b = true) : isBlank b = false := by
  cases hblank : isBlank b with
  | false => rfl
  | true =>
    rcases blank_cases hblank with rfl | rfl | rfl | rfl | rfl <;> exact absurd h (by decide)

theorem isWordPart_of_start (h : isWordStart b = true) : isWordPart b = true := by
  simp [isWordPart, h]

theorem isWordPart_of_digit (h : isDigit b = true) : isWordPart b = true := by
  simp [isWordPart, h]

theorem isDigit_of_start (h : isWordStart b = true) : isDigit b = false := by
  revert h
  simp only [isWordStart, isLetter, isDigit]
  grind

theorem ne_slash_of_part (h : isWordPart b = true) : b ≠ 47 := by
  rintro rfl
  exact absurd h (by decide)

theorem lt_of_part (h : isWordPart b = true) : b.toNat < 128 := by
  simp [isWordPart, isWordStart, isLetter, isDigit, UInt8.le_iff_toNat_le, ← UInt8.toNat_inj] at h
  omega

theorem part_of_formWord {bytes : List UInt8} (h : formWord bytes = true) (hb : b ∈ bytes) :
    isWordPart b = true := by
  cases bytes with
  | nil => cases h
  | cons first bytes =>
    obtain ⟨hstart, hparts⟩ := Bool.and_eq_true_iff.mp h
    rcases List.mem_cons.mp hb with rfl | hb
    · exact isWordPart_of_start hstart
    · exact List.all_eq_true.mp hparts b hb

end Byte

/-! ### Words, numbers and punctuation -/

namespace Piece

variable {bytes rest : List UInt8}

/-- A word is taken up to the first byte that is no part of one. -/
theorem atFront?_word (hbytes : Byte.formWord bytes = true)
    (hrest : ∀ b ∈ rest.head?, Byte.isWordPart b = false) :
    atFront? (bytes ++ rest) = some (.word bytes) := by
  have hword : (bytes ++ rest).takeWhile Byte.isWordPart = bytes :=
    Text.takeWhile_append_head
      (List.all_eq_true.mpr fun _ hb => Byte.part_of_formWord hbytes hb) hrest
  cases bytes with
  | nil => cases hbytes
  | cons b bytes =>
    have hstart := (Bool.and_eq_true_iff.mp hbytes).1
    have hpart := Byte.isWordPart_of_start hstart
    rw [List.cons_append] at hword ⊢
    simp [atFront?, Byte.isBlank_of_part hpart, Byte.ne_slash_of_part hpart,
      Byte.isDigit_of_start hstart, hstart, hword]

/-- Digits that nothing continues are a whole number. -/
theorem atFront?_digits (hne : bytes ≠ []) (hdigits : ∀ b ∈ bytes, Byte.isDigit b = true)
    (hrest : ∀ b ∈ rest.head?, Byte.isWordPart b = false ∧ b ≠ 46) :
    atFront? (bytes ++ rest) = some (.numeral ⟨bytes, [], [], []⟩) := by
  have hwhole : (bytes ++ rest).takeWhile Byte.isDigit = bytes := by
    apply Text.takeWhile_append_head (List.all_eq_true.mpr hdigits)
    intro b hb
    cases hdigit : Byte.isDigit b with
    | false => rfl
    | true =>
      have hpart := Byte.isWordPart_of_digit hdigit
      rw [(hrest b hb).1] at hpart
      cases hpart
  have hfraction : Numeral.fractionOf rest = [] := by
    cases rest with
    | nil => rfl
    | cons b rest => exact if_neg (hrest b rfl).2
  -- The letter of an exponent could as well be part of a word.
  have hexponent : Numeral.exponentOf rest = ([], []) := by
    cases rest with
    | nil => rfl
    | cons b rest =>
      apply if_neg
      rintro (rfl | rfl)
      · cases (hrest _ rfl).1
      · cases (hrest _ rfl).1
  have hscan : Numeral.scan (bytes ++ rest) = ⟨bytes, [], [], []⟩ := by
    simp [Numeral.scan, hwhole, hfraction, Numeral.fractionLength, hexponent]
  cases bytes with
  | nil => exact absurd rfl hne
  | cons b bytes =>
    have hdigit := hdigits b (by simp)
    have hpart := Byte.isWordPart_of_digit hdigit
    rw [List.cons_append] at hscan ⊢
    simp [atFront?, Byte.isBlank_of_part hpart, Byte.ne_slash_of_part hpart, hdigit, hscan]

end Piece

namespace Punct

theorem mem_all (mark : Punct) : mark ∈ Punct.all := by
  cases mark <;> decide

/-- No punctuation has letters, digits or blanks in it. -/
theorem no_part_or_blank (mark : Punct) {b : UInt8} (hb : b ∈ Text.bytes mark.spelling) :
    Byte.isWordPart b = false ∧ Byte.isBlank b = false := by
  have hall : (Text.bytes mark.spelling).all
      (fun b => !Byte.isWordPart b && !Byte.isBlank b) = true := by
    cases mark <;> decide
  simpa using List.all_eq_true.mp hall b hb

/-- The byte makes more punctuation of a mark, or a comment. -/
def joins (mark : Punct) (b : UInt8) : Bool :=
  lexemes.any (fun entry => (Text.bytes mark.spelling ++ [b]).isPrefixOf entry.1) ||
    decide (mark = .slash ∧ (b = 47 ∨ b = 42))

/-- A byte that no punctuation has makes nothing else of a mark. -/
theorem joins_foreign (mark : Punct) {b : UInt8}
    (hb : ∀ other : Punct, b ∉ Text.bytes other.spelling) : mark.joins b = false := by
  unfold joins
  rw [Bool.or_eq_false_iff]
  constructor
  · refine List.any_eq_false.mpr fun entry hentry hfront => ?_
    obtain ⟨other, -, rfl⟩ := List.mem_map.mp hentry
    exact hb other ((List.isPrefixOf_iff_prefix.mp hfront).subset (by simp))
  · rw [decide_eq_false_iff_not]
    rintro ⟨-, rfl | rfl⟩
    · exact hb .slash (by decide)
    · exact hb .star (by decide)

theorem joins_part (mark : Punct) {b : UInt8} (hb : Byte.isWordPart b = true) :
    mark.joins b = false :=
  mark.joins_foreign fun other hmem => by simp [(other.no_part_or_blank hmem).1] at hb

theorem joins_blank (mark : Punct) {b : UInt8} (hb : Byte.isBlank b = true) :
    mark.joins b = false :=
  mark.joins_foreign fun other hmem => by simp [(other.no_part_or_blank hmem).2] at hb

theorem atFront?_spelling (mark : Punct) : atFront? (Text.bytes mark.spelling) = some mark := by
  have hall : (Punct.all.all fun mark =>
      decide (atFront? (Text.bytes mark.spelling) = some mark)) = true := by
    decide +kernel
  exact of_decide_eq_true (List.all_eq_true.mp hall mark mark.mem_all)

/-- No other piece starts as punctuation does, if no comment does. -/
theorem spelling_starts (mark : Punct) : ∃ b bytes, Text.bytes mark.spelling = b :: bytes ∧
    Byte.isBlank b = false ∧ Byte.isDigit b = false ∧ Byte.isWordStart b = false ∧ b ≠ 34 ∧
      b ≠ 39 ∧ bytes.head? ≠ some 47 ∧ bytes.head? ≠ some 42 ∧
        (b = 47 → bytes = [] → mark = .slash) := by
  cases mark <;> exact ⟨_, _, rfl, by decide⟩

/-- A spelling that is longer than the mark goes on with the byte behind it. -/
theorem isPrefixOf_append {mark : Punct} {rest : List UInt8}
    (hrest : ∀ b ∈ rest.head?, mark.joins b = false) {entry : List UInt8 × Punct}
    (hentry : entry ∈ lexemes) : entry.1.isPrefixOf (Text.bytes mark.spelling ++ rest) =
      entry.1.isPrefixOf (Text.bytes mark.spelling) := by
  rw [Bool.eq_iff_iff, List.isPrefixOf_iff_prefix, List.isPrefixOf_iff_prefix]
  refine ⟨fun h => ?_, fun h => h.trans (List.prefix_append _ _)⟩
  rcases List.prefix_or_prefix_of_prefix h (List.prefix_append _ rest) with hshort | ⟨more, hmore⟩
  · exact hshort
  · rw [← hmore] at h ⊢
    obtain ⟨after, hafter⟩ := (List.prefix_append_right_inj _).mp h
    cases more with
    | nil => simp
    | cons b more =>
      have hnot := hrest b (by rw [← hafter]; rfl)
      have hjoins : mark.joins b = true := by
        refine Bool.or_eq_true_iff.mpr (.inl (List.any_eq_true.mpr ⟨entry, hentry, ?_⟩))
        rw [List.isPrefixOf_iff_prefix, ← hmore]
        exact (List.prefix_append_right_inj _).mpr ⟨more, rfl⟩
      rw [hjoins] at hnot
      cases hnot

theorem atFront?_append {mark : Punct} {rest : List UInt8}
    (hrest : ∀ b ∈ rest.head?, mark.joins b = false) :
    atFront? (Text.bytes mark.spelling ++ rest) = some mark := by
  have hsame : lexemes.filter (fun entry => entry.1.isPrefixOf (Text.bytes mark.spelling ++ rest)) =
      lexemes.filter fun entry => entry.1.isPrefixOf (Text.bytes mark.spelling) :=
    List.filter_congr fun entry hentry => isPrefixOf_append hrest hentry
  rw [← atFront?_spelling mark, atFront?, ← List.head?_filter, hsame, List.head?_filter, atFront?]

end Punct

/-- A mark is read whole if the next byte makes no other of it. -/
theorem Piece.atFront?_punct {mark : Punct} {rest : List UInt8}
    (hrest : ∀ b ∈ rest.head?, mark.joins b = false) :
    atFront? (Text.bytes mark.spelling ++ rest) = some (.punct mark) := by
  have hmark := Punct.atFront?_append hrest
  obtain ⟨b, bytes, hbytes, hblank, hdigit, hstart, hquote, htick, hline, hblock, hslash⟩ :=
    mark.spelling_starts
  have hcomment {d : UInt8} (hd : d = 47 ∨ d = 42) (hne : bytes.head? ≠ some d) :
      ¬(b = 47 ∧ (bytes ++ rest).head? = some d) := by
    rintro ⟨rfl, hhead⟩
    cases bytes with
    | nil =>
      have hnot := hrest d hhead
      have hjoins : mark.joins d = true :=
        Bool.or_eq_true_iff.mpr (.inr (decide_eq_true ⟨hslash rfl rfl, hd⟩))
      rw [hjoins] at hnot
      cases hnot
    | cons _ _ => exact hne hhead
  have hnoLine := hcomment (.inl rfl) hline
  have hnoBlock := hcomment (.inr rfl) hblock
  rw [hbytes, List.cons_append] at hmark ⊢
  generalize bytes ++ rest = more at hmark hnoLine hnoBlock ⊢
  simp [atFront?, hblank, hnoLine, hnoBlock, hdigit, hstart, hquote, htick, hmark]

/-! ### Literals -/

def Byte.inString (b : UInt8) : List UInt8 :=
  if b = 34 ∨ b = 92 then [92, b] else [b]

/-- No byte of a character outside of ASCII looks like a quote or a backslash. -/
theorem encode_inString (c : Char) : (inString c).flatMap String.utf8EncodeChar =
    (String.utf8EncodeChar c).flatMap Byte.inString := by
  by_cases hspecial : c = '"' ∨ c = '\\'
  · rcases hspecial with rfl | rfl <;> rfl
  · have hplain : ∀ b ∈ String.utf8EncodeChar c, Byte.inString b = [b] := by
      intro b hb
      apply if_neg
      rcases Text.utf8EncodeChar_cases c with ⟨d, hd, hc⟩ | ⟨d, ds, hd, hhigh⟩
      · rw [hd, List.mem_singleton] at hb
        subst hb
        rintro (rfl | rfl)
        · exact hspecial (.inl hc.symm)
        · exact hspecial (.inr hc.symm)
      · have hb := hhigh b (hd ▸ hb)
        rintro (rfl | rfl) <;> exact absurd hb (by decide)
    rw [inString, if_neg hspecial, List.flatMap_singleton]
    -- Byte by byte from here on: how many there are does not matter.
    generalize String.utf8EncodeChar c = bytes at hplain ⊢
    induction bytes with
    | nil => rfl
    | cons b bytes ih =>
      rw [List.flatMap_cons, hplain b (by simp), ← ih fun d hd => hplain d (by simp [hd])]
      rfl

theorem bytes_str (text : String) : Text.bytes (SourceToken.str text).spelling =
    34 :: ((Text.bytes text).flatMap Byte.inString ++ [34]) := by
  have hcontent : (text.toList.flatMap inString).flatMap String.utf8EncodeChar =
      (Text.bytes text).flatMap Byte.inString := by
    rw [Text.bytes_eq, List.flatMap_assoc, List.flatMap_assoc]
    simp only [encode_inString]
  rw [Text.bytes_eq, SourceToken.spelling, String.toList_ofList, List.cons_append,
    List.flatMap_cons, List.flatMap_append, hcontent]
  rfl

namespace Piece

variable {seen : Nat} {done rest : List UInt8} {b : UInt8}

theorem atFront?_quote {length : Nat} {content : List UInt8} {closed : Bool}
    (h : stringEnd 1 [] rest = (length, content, closed)) :
    atFront? (34 :: rest) = some (.string length content closed) := by
  have hfront : atFront? (34 :: rest) = some (.string (stringEnd 1 [] rest).1
    (stringEnd 1 [] rest).2.1 (stringEnd 1 [] rest).2.2) := rfl
  rw [hfront, h]

theorem atFront?_tick : atFront? (39 :: rest) = some (charLiteral rest) :=
  rfl

theorem stringEnd_escape : stringEnd seen done (92 :: b :: rest) =
    stringEnd (seen + 2) (Byte.unescape b :: done) rest := by
  simp [stringEnd]

theorem stringEnd_plain (hquote : b ≠ 34) (hslash : b ≠ 92) :
    stringEnd seen done (b :: rest) = stringEnd (seen + 1) (b :: done) rest := by
  cases rest <;> simp [stringEnd, hquote, hslash]

/-- What was written into a string literal is read from it, up to the closing
quote. -/
theorem stringEnd_inString (content : List UInt8) :
    stringEnd seen done (content.flatMap Byte.inString ++ 34 :: rest) =
      (seen + (content.flatMap Byte.inString).length + 1, done.reverse ++ content, true) := by
  induction content generalizing seen done with
  | nil => cases rest <;> simp [stringEnd]
  | cons b content ih =>
    rw [List.flatMap_cons, List.append_assoc, List.length_append]
    by_cases hspecial : b = 34 ∨ b = 92
    · have hsame : Byte.unescape b = b := by
        rcases hspecial with rfl | rfl <;> rfl
      rw [Byte.inString, if_pos hspecial, List.cons_append, List.singleton_append,
        stringEnd_escape, ih, hsame]
      simp
      omega
    · obtain ⟨hquote, hslash⟩ := not_or.mp hspecial
      rw [Byte.inString, if_neg hspecial, List.singleton_append,
        stringEnd_plain hquote hslash, ih]
      simp
      omega

/-- A character is read back from its escaped form. -/
theorem charLiteral_inChar {value : UInt8} :
    charLiteral (((inChar value).map fun c => UInt8.ofNat c.toNat) ++ 39 :: rest) =
      .char ((inChar value).length + 2) value none := by
  have hvalue : UInt8.ofNat (Char.ofNat value.toNat).toNat = value := by
    rw [Text.toNat_ofNat_byte, UInt8.ofNat_toNat]
  unfold inChar
  split_ifs with hnewline hreturn htab hzero hslash
  · subst hnewline
    rfl
  · subst hreturn
    rfl
  · subst htab
    rfl
  · subst hzero
    rfl
  · rcases hslash with rfl | rfl <;> rfl
  · obtain ⟨hback, htick⟩ := not_or.mp hslash
    simp [hvalue, charLiteral, charEnd, hnewline, hback, htick]

end Piece

theorem bytes_char {value : UInt8} (ascii : value.toNat < 128) :
    Text.bytes (SourceToken.char value ascii).spelling =
      39 :: (((inChar value).map fun c => UInt8.ofNat c.toNat) ++ [39]) := by
  have hascii : ∀ c ∈ '\'' :: inChar value ++ ['\''], c.toNat < 128 := by
    have hvalue : (Char.ofNat value.toNat).toNat < 128 := by
      rwa [Text.toNat_ofNat_byte]
    unfold inChar
    split_ifs <;> simp [hvalue]
  rw [SourceToken.spelling, Text.bytes_ofList_ascii hascii]
  simp

theorem toNat_of_mem_toDigits {n : Nat} {c : Char} (hc : c ∈ Nat.toDigits 10 n) :
    48 ≤ c.toNat ∧ c.toNat ≤ 57 :=
  Text.isDigit_iff.mp (Nat.isDigit_of_mem_toDigits (by decide) (by decide) hc)

theorem bytes_toString (n : Nat) : Text.bytes (toString n) =
    (Nat.toDigits 10 n).map fun c => UInt8.ofNat c.toNat := by
  rw [Nat.toString_eq_ofList_toDigits]
  apply Text.bytes_ofList_ascii
  intro c hc
  have hdigit := toNat_of_mem_toDigits hc
  omega

theorem isDigit_of_mem_toString {n : Nat} {b : UInt8} (hb : b ∈ Text.bytes (toString n)) :
    Byte.isDigit b = true := by
  rw [bytes_toString] at hb
  obtain ⟨c, hc, rfl⟩ := List.mem_map.mp hb
  have hdigit := toNat_of_mem_toDigits hc
  simp [Byte.isDigit, UInt8.le_iff_toNat_le]
  omega

namespace Byte

/-- The digits of a number are read as the number. -/
theorem decimal_toString (n : Nat) : decimal (Text.bytes (toString n)) = n := by
  have hcodes : (Nat.toDigits 10 n).map (fun c => (UInt8.ofNat c.toNat).toNat) =
      (Nat.toDigits 10 n).map Char.toNat := by
    apply List.map_congr_left
    intro c hc
    have hdigit := toNat_of_mem_toDigits hc
    rw [UInt8.toNat_ofNat']
    exact Nat.mod_eq_of_lt (by omega)
  calc decimal (Text.bytes (toString n))
      = ((Nat.toDigits 10 n).map fun c => (UInt8.ofNat c.toNat).toNat).foldl
          (fun m d => 10 * m + (d - 48)) 0 := by
        rw [bytes_toString, decimal, List.foldl_map, List.foldl_map]
    _ = ((Nat.toDigits 10 n).map Char.toNat).foldl (fun m d => 10 * m + (d - 48)) 0 := by
        rw [hcodes]
    _ = Nat.ofDigitChars 10 (Nat.toDigits 10 n) 0 := by
        rw [List.foldl_map, Nat.ofDigitChars_eq_foldl]
        rfl
    _ = n := Nat.ofDigitChars_ten_toDigits

/-- Zeros in front do not count. -/
theorem decimal_dropWhile (digits : List UInt8) :
    decimal (digits.dropWhile (· == 48)) = decimal digits := by
  induction digits with
  | nil => rfl
  | cons d digits ih =>
    by_cases hd : d = 48
    · subst hd
      exact ih
    · rw [List.dropWhile_cons_of_neg (by simpa using hd)]

end Byte

theorem Numeral.toInt?_toString {n : Nat} (small : n < 0x8000000000000000) :
    toInt? ⟨Text.bytes (toString n), [], [], []⟩ = some (n : Int) := by
  have hlength : ((Text.bytes (toString n)).dropWhile (· == 48)).length ≤ 19 := by
    refine Nat.le_trans (List.dropWhile_suffix _).length_le ?_
    rw [bytes_toString, List.length_map, Nat.length_toDigits_le_iff (by decide) (by decide)]
    -- Nineteen digits are enough for every number in range.
    exact Nat.lt_trans small (by decide)
  simp only [toInt?]
  rw [if_pos hlength, Byte.decimal_dropWhile, Byte.decimal_toString, if_pos small]

/-! ### Every spelling is one piece -/

namespace SourceToken

def piece (t : SourceToken) : Piece :=
  match t with
  | keyword word => .word (Text.bytes word.spelling)
  | punct mark => .punct mark
  | ident name => .word (Text.bytes name.text)
  | int value _ => .numeral ⟨Text.bytes (toString value), [], [], []⟩
  | str text => .string (Text.bytes t.spelling).length (Text.bytes text) true
  | char value _ => .char (Text.bytes t.spelling).length value none

theorem formWord_keyword (word : Keyword) : Byte.formWord (Text.bytes word.spelling) = true := by
  cases word <;> decide

theorem ofWord?_keyword (word : Keyword) : Keyword.ofWord? word.spelling = some word := by
  cases word <;> decide

variable {rest : List UInt8}

def joins (b : UInt8) : SourceToken → Bool
  | keyword _ | ident _ => Byte.isWordPart b
  | int _ _ => Byte.isWordPart b || b == 46
  | punct mark => mark.joins b
  | str _ | char _ _ => false

/-- A blank ends every token. -/
theorem joins_blank {b : UInt8} (hb : Byte.isBlank b = true) (t : SourceToken) :
    t.joins b = false := by
  cases t with
  | punct mark => exact mark.joins_blank hb
  | int _ _ | keyword _ | ident _ =>
    rcases Byte.blank_cases hb with rfl | rfl | rfl | rfl | rfl <;> rfl
  | str _ | char _ _ => rfl

/-- A token is read from its spelling if the next byte does not join it. -/
theorem atFront?_piece {t : SourceToken} (hrest : ∀ b ∈ rest.head?, t.joins b = false) :
    Piece.atFront? (Text.bytes t.spelling ++ rest) = some t.piece := by
  cases t with
  | keyword word => exact Piece.atFront?_word (formWord_keyword word) hrest
  | punct mark => exact Piece.atFront?_punct hrest
  | ident name => exact Piece.atFront?_word name.shape hrest
  | int value _ =>
    refine Piece.atFront?_digits ?_ (fun _ => isDigit_of_mem_toString) fun b hb => ?_
    · rw [spelling, bytes_toString]
      simp
    · simpa [joins] using hrest b hb
  | str text =>
    rw [piece, bytes_str, List.cons_append, List.append_assoc, List.singleton_append]
    apply Piece.atFront?_quote
    rw [Piece.stringEnd_inString]
    simp [Nat.add_comm 1]
  | char value ascii =>
    rw [piece, bytes_char, List.cons_append, List.append_assoc, List.singleton_append]
    rw [Piece.atFront?_tick, Piece.charLiteral_inChar]
    simp

theorem length_piece (t : SourceToken) : t.piece.length = (Text.bytes t.spelling).length := by
  cases t with
  | int value _ => simp [piece, Piece.length, Numeral.length, Numeral.fractionLength, spelling]
  | _ => rfl

theorem length_piece_pos (t : SourceToken) : 0 < t.piece.length := by
  rw [length_piece, List.length_pos_iff]
  intro hnil
  have hfront : Piece.atFront? (Text.bytes t.spelling ++ []) = some t.piece :=
    atFront?_piece (by simp)
  rw [hnil] at hfront
  cases hfront

theorem fault?_piece (t : SourceToken) : t.piece.fault? = none := by
  cases t with
  | int value small =>
    simp only [piece, Piece.fault?, Numeral.toInt?_toString small]
    rfl
  | _ => rfl

def intern (names : Interner) (t : SourceToken) : Interner :=
  match t.text? with
  | some text => (names.intern text).2
  | none => names

/-- The piece of a token gives the token back. -/
theorem token_piece (names : Interner) (t : SourceToken) : t.piece.token names =
    (some (t.kind fun text => (names.intern text).1), intern names t) := by
  cases t with
  | keyword word =>
    have hword : Text.ofLatin1 (Text.bytes word.spelling) = word.spelling :=
      Text.ofLatin1_bytes fun _ hb =>
        Byte.lt_of_part (Byte.part_of_formWord (formWord_keyword word) hb)
    simp [piece, Piece.token, hword, ofWord?_keyword, kind, intern, text?]
  | punct mark => rfl
  | ident name =>
    have hname : Text.ofLatin1 (Text.bytes name.text) = name.text :=
      Text.ofLatin1_bytes fun _ hb => Byte.lt_of_part (Byte.part_of_formWord name.shape hb)
    have hfree : Keyword.ofWord? name.text = none := by
      simp [Keyword.ofWord?, name.free]
    simp [piece, Piece.token, hname, hfree, kind, intern, text?]
  | int value small =>
    simp only [piece, Piece.token, Numeral.toInt?_toString small]
    rfl
  | str text => simp [piece, Piece.token, Text.ofBytes_bytes, kind, intern, text?]
  | char value _ => rfl

end SourceToken

end StagedCompiler
