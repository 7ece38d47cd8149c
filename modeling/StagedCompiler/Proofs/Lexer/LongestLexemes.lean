import StagedCompiler.Proofs.Lexer.NumberLexemes
import StagedCompiler.Proofs.Lexer.RoundTrip
import StagedCompiler.Proofs.Lexer.SourcePartition

/-!
The kind of a token is that of its lexeme, and no lexeme could be longer. A word
is a keyword if it is spelled like one and else a name; a number is an integer
if it is made of digits alone; punctuation is the longest of the table. A number
too large for an integer is reported, once.
-/

namespace StagedCompiler

/-! ### Words and punctuation -/

/-- A letter or an underscore, with letters, digits and underscores after it. -/
def words : Language UInt8 :=
  {s | ∃ b tail, s = b :: tail ∧ Byte.isWordStart b = true ∧ ∀ c ∈ tail, Byte.isWordPart c = true}

def punctuation : Language UInt8 :=
  {s | ∃ mark : Punct, s = Text.bytes mark.spelling}

theorem mem_words {s : List UInt8} : s ∈ words ↔ Byte.formWord s = true := by
  constructor
  · rintro ⟨b, tail, rfl, hstart, htail⟩
    exact Bool.and_eq_true_iff.mpr ⟨hstart, List.all_eq_true.mpr htail⟩
  · intro h
    cases s with
    | nil => cases h
    | cons b tail =>
      obtain ⟨hstart, htail⟩ := Bool.and_eq_true_iff.mp h
      exact ⟨b, tail, rfl, hstart, List.all_eq_true.mp htail⟩

/-- A word with no part of a word behind it is the longest word there. -/
theorem words_longest {s after : List UInt8} (hs : Byte.formWord s = true)
    (hafter : ∀ b ∈ after.head?, Byte.isWordPart b = false) : IsLongest words s (s ++ after) := by
  refine ⟨mem_words.mpr hs, List.prefix_append _ _, fun s' hs' hfront => ?_⟩
  have hall : (s ++ after).takeWhile Byte.isWordPart = s := by
    rw [List.takeWhile_append_of_pos fun b hb => Byte.part_of_formWord hs hb]
    cases after with
    | nil => exact List.append_nil s
    | cons b after =>
      rw [List.takeWhile_cons_of_neg (by simp [hafter b rfl]), List.append_nil]
  have hparts (b : UInt8) (hb : b ∈ s') := Byte.part_of_formWord (mem_words.mp hs') hb
  rw [← List.append_nil s'] at hfront
  rcases run_of_front hparts (by simp) hfront with ⟨-, hle⟩ | ⟨heq, -⟩
  · exact (hall ▸ hle).length_le
  · exact (heq.trans hall) ▸ Nat.le_refl _

theorem Punct.mem_lexemes (mark : Punct) : (Text.bytes mark.spelling, mark) ∈ Punct.lexemes :=
  List.mem_map.mpr ⟨mark, mark.mem_all, rfl⟩

/-- The table is in order, so what is found first is the longest. -/
theorem punctuation_longest {mark : Punct} {bytes : List UInt8}
    (h : Punct.atFront? bytes = some mark) :
    IsLongest punctuation (Text.bytes mark.spelling) bytes := by
  have hsorted : Punct.lexemes.Pairwise fun e e' => e'.1.length ≤ e.1.length := by decide +kernel
  obtain ⟨entry, hfound, rfl⟩ := Option.map_eq_some_iff.mp h
  obtain ⟨hfront, before, behind, htable, hbefore⟩ := List.find?_eq_some_iff_append.mp hfound
  have hentry : Text.bytes entry.2.spelling = entry.1 := by
    have hmem : entry ∈ Punct.lexemes := htable ▸ by simp
    obtain ⟨mark, -, rfl⟩ := List.mem_map.mp hmem
    rfl
  rw [hentry]
  refine ⟨⟨entry.2, hentry.symm⟩, List.isPrefixOf_iff_prefix.mp hfront, ?_⟩
  rintro s' ⟨mark, rfl⟩ hs'
  have hmem := mark.mem_lexemes
  rw [htable] at hmem hsorted
  rcases List.mem_append.mp hmem with hearly | hlate
  · have hnot := hbefore _ hearly
    rw [List.isPrefixOf_iff_prefix.mpr hs'] at hnot
    cases hnot
  · rcases List.mem_cons.mp hlate with hsame | hlate
    · rw [← hsame]
    · exact (List.pairwise_cons.mp (List.pairwise_append.mp hsorted).2.1).1 _ hlate

/-! ### What a lexeme makes -/

/-- The kind of a token is that of its lexeme, which is as long as it can be at
the front of `rest`. -/
def TokenKind.Spells (names : Interner) (s rest : List UInt8) : TokenKind → Prop
  | .keyword word => IsLongest words s rest ∧ Text.bytes word.spelling = s
  | .ident sym => IsLongest words s rest ∧ (∀ word : Keyword, Text.bytes word.spelling ≠ s) ∧
      ∃ name, names.resolve? sym = some name ∧ Text.bytes name = s
  | .int v => IsLongest Numeral.literals s rest ∧ s ∈ Numeral.digits ∧ v = Byte.decimal s ∧
      Byte.decimal s < 0x8000000000000000
  | .float x => IsLongest Numeral.literals s rest ∧ s ∉ Numeral.digits ∧
      ∃ n : Numeral, n.Valid ∧ n.text = s ∧
        (∃ read, Numeral.Counted n.exponent read ∧ Double.Rounds (n.value read) x) ∧
          (s.length ≤ 65000 → Double.Rounds (n.value n.exponent) x)
  | .punct mark => IsLongest punctuation s rest ∧ Text.bytes mark.spelling = s
  | .str _ => s.head? = some 34
  | .char _ => s.head? = some 39
  | .eof => False

def TokenKind.isWord : TokenKind → Bool
  | .ident _ | .keyword _ => true
  | _ => false

/-- A larger table of names changes nothing. -/
theorem TokenKind.Spells.mono {names names' : Interner} {s rest : List UInt8} {kind : TokenKind}
    (h : kind.Spells names s rest)
    (hnames : ∀ sym text, names.resolve? sym = some text → names'.resolve? sym = some text) :
    kind.Spells names' s rest := by
  cases kind with
  | ident sym =>
    obtain ⟨hlongest, hfree, name, hname, hbytes⟩ := h
    exact ⟨hlongest, hfree, name, hnames _ _ hname, hbytes⟩
  | _ => exact h

theorem Keyword.ofWord?_eq_some {text : String} {word : Keyword}
    (h : Keyword.ofWord? text = some word) : word.spelling = text := by
  have hfound := List.find?_some (p := fun word : Keyword => word.spelling == text) h
  exact eq_of_beq hfound

namespace Piece

variable {p : Piece} {s after : List UInt8} {names : Interner} {kind : TokenKind}

/-- A word is as long as it can be, and its kind is that of its text. -/
theorem word_spells (hs : Byte.formWord s = true)
    (hafter : ∀ b ∈ after.head?, Byte.isWordPart b = false)
    (h : ((word s).token names).1 = some kind) :
    kind.Spells ((word s).token names).2 s (s ++ after) := by
  have hlongest := words_longest hs hafter
  have hbytes : Text.bytes (Text.ofLatin1 s) = s :=
    Text.bytes_ofLatin1 fun b hb => Byte.lt_of_part (Byte.part_of_formWord hs hb)
  simp only [token] at h ⊢
  cases hword : Keyword.ofWord? (Text.ofLatin1 s) with
  | some reserved =>
    rw [hword] at h
    cases h
    refine ⟨hlongest, ?_⟩
    rw [Keyword.ofWord?_eq_some hword, hbytes]
  | none =>
    rw [hword] at h
    cases h
    refine ⟨hlongest, fun reserved hsame => ?_, _, Interner.resolve?_intern, hbytes⟩
    have hspelling := congrArg Text.ofBytes (hsame.trans hbytes.symm)
    rw [Text.ofBytes_bytes, Text.ofBytes_bytes] at hspelling
    rw [← hspelling, SourceToken.ofWord?_keyword] at hword
    cases hword

theorem numeral_longest {n : Numeral} (hwhole : n.whole ≠ [])
    (hscan : Numeral.scan (n.text ++ after) = n) :
    n.Valid ∧ IsLongest Numeral.literals n.text (n.text ++ after) := by
  have hne : (Numeral.scan (n.text ++ after)).whole ≠ [] := hscan.symm ▸ hwhole
  have hvalid := Numeral.scan_valid hne
  have hlongest := Numeral.scan_longest hne
  rw [hscan] at hvalid hlongest
  exact ⟨hvalid, hlongest⟩

/-- A number is as long as it can be, and its value is that of its digits. -/
theorem numeral_spells {n : Numeral} (hwhole : n.whole ≠ [])
    (hscan : Numeral.scan (n.text ++ after) = n) (hclean : (numeral n).fault? = none)
    (h : ((numeral n).token names).1 = some kind) :
    kind.Spells ((numeral n).token names).2 n.text (n.text ++ after) := by
  obtain ⟨hvalid, hlongest⟩ := numeral_longest hwhole hscan
  simp only [token, fault?] at h hclean ⊢
  by_cases hfloat : n.isFloat = true
  · rw [if_pos hfloat] at h
    cases h
    obtain ⟨hcounted, hexact⟩ := hvalid.toDouble_rounds
    refine ⟨hlongest, hvalid.text_not_digits hfloat, n, hvalid, rfl, hcounted, fun hshort => ?_⟩
    exact hexact (Nat.le_trans n.length_digits_le hshort)
  · have htext := hvalid.text_eq_whole (by simpa using hfloat)
    rw [if_neg hfloat] at h hclean
    rw [Numeral.toInt?_eq hvalid.whole.2] at h hclean
    by_cases hsmall : Byte.decimal n.whole < 0x8000000000000000
    · rw [if_pos hsmall] at h
      cases h
      refine ⟨hlongest, ?_, ?_, ?_⟩
      · rw [htext]
        exact hvalid.whole
      · rw [htext]
        rfl
      · rw [htext]
        exact hsmall
    · rw [if_neg hsmall] at hclean
      cases hclean

/-- A token without a fault is what its lexeme spells. -/
theorem Front.spells (h : Front p s after) (hclean : p.fault? = none)
    (htoken : (p.token names).1 = some kind) :
    kind.Spells (p.token names).2 s (s ++ after) := by
  cases h with
  | numeral hwhole hscan => exact numeral_spells hwhole hscan hclean htoken
  | word hs hafter => exact word_spells hs hafter htoken
  | punct hmark =>
    cases htoken
    exact ⟨punctuation_longest hmark, rfl⟩
  | string | char _ =>
    cases htoken
    exact rfl
  | blank _ _ | lineComment _ _ | closedComment _ | openComment _ | strayChar _
  | strayByte _ _ => cases htoken

/-- Digits that spell a number out of range are read as zero, with a fault. -/
theorem Front.huge (h : Front p s after) (hdigits : s ∈ Numeral.digits)
    (hlarge : 0x8000000000000000 ≤ Byte.decimal s) (htoken : (p.token names).1 = some kind) :
    kind = .int 0 ∧ p.fault? = some (.hugeInt s) ∧
      IsLongest Numeral.literals s (s ++ after) := by
  cases h with
  | @numeral n _ hwhole hscan =>
    obtain ⟨hvalid, hlongest⟩ := numeral_longest hwhole hscan
    have hint : n.isFloat = false := by
      cases hfloat : n.isFloat with
      | false => rfl
      | true => exact absurd hdigits (hvalid.text_not_digits hfloat)
    have htext := hvalid.text_eq_whole hint
    have hnone : n.toInt? = none := by
      rw [Numeral.toInt?_eq hvalid.whole.2, ← htext, if_neg (Nat.not_lt.mpr hlarge)]
    refine ⟨?_, ?_, hlongest⟩
    · simp only [token, hint, hnone] at htoken
      cases htoken
      rfl
    · simp only [fault?, hint, hnone, htext]
      rfl
  | @word s _ hs _ =>
    cases s with
    | nil => cases hs
    | cons b tail =>
      have hdigit := hdigits.2 b List.mem_cons_self
      rw [Byte.isDigit_of_start (Bool.and_eq_true_iff.mp hs).1] at hdigit
      cases hdigit
  | @punct mark _ _ =>
    obtain ⟨b, hb⟩ := List.exists_mem_of_ne_nil _ hdigits.1
    have hpart := Byte.isWordPart_of_digit (hdigits.2 b hb)
    rw [(mark.no_part_or_blank hb).1] at hpart
    cases hpart
  | string | char _ => exact absurd (hdigits.2 _ List.mem_cons_self) (by decide)
  | blank _ _ | lineComment _ _ | closedComment _ | openComment _ | strayChar _
  | strayByte _ _ => cases htoken

/-- A word token starts with a letter or an underscore. -/
theorem Front.head_of_word (h : Front p s after) (htoken : (p.token names).1 = some kind)
    (hword : kind.isWord = true) : ∃ d tail, s = d :: tail ∧ Byte.isWordPart d = true := by
  cases h with
  | @word s _ hs _ =>
    obtain ⟨d, tail, rfl, hstart, -⟩ := mem_words.mpr hs
    exact ⟨d, tail, rfl, Byte.isWordPart_of_start hstart⟩
  | numeral _ _ | string | char _ | punct _ =>
    obtain ⟨_, hgives⟩ := gives_fst htoken
    cases hgives <;> cases hword
  | blank _ _ | lineComment _ _ | closedComment _ | openComment _ | strayChar _
  | strayByte _ _ => cases htoken

/-- Where a piece ends in the middle of letters and digits, it makes a token that
is no word. -/
theorem Front.token_of_part (h : Front p s after) {b d : UInt8} (hb : s.getLast? = some b)
    (hpart : Byte.isWordPart b = true) (hd : after.head? = some d)
    (hnext : Byte.isWordPart d = true) :
    ∃ kind, (p.token names).1 = some kind ∧ kind.isWord = false := by
  have hmem := List.mem_of_getLast? hb
  cases h with
  | @numeral n _ _ _ =>
    simp only [token]
    split
    · exact ⟨_, rfl, rfl⟩
    · exact ⟨_, rfl, rfl⟩
  | string | char _ => exact ⟨_, rfl, rfl⟩
  | word _ hafter =>
    rw [hafter d hd] at hnext
    cases hnext
  | punct _ =>
    rw [(Punct.no_part_or_blank _ hmem).1] at hpart
    cases hpart
  | blank _ hblank =>
    have hblank := hblank b hmem
    rw [Byte.isBlank_of_part hpart] at hblank
    cases hblank
  | lineComment _ hline =>
    cases hline d hd
    cases hnext
  | @closedComment body _ _ =>
    have hlast : (47 :: 42 :: (body ++ [42, 47])).getLast? = some 47 := by
      rw [List.getLast?_cons_cons, List.getLast?_cons_of_ne_nil (by simp), List.getLast?_append]
      rfl
    cases hlast.symm.trans hb
    cases hpart
  | openComment _ => cases hd
  | strayChar hbytes =>
    rw [(hbytes b hmem).2] at hpart
    cases hpart
  | strayByte hbyte _ =>
    cases List.mem_singleton.mp hmem
    rw [hbyte.2] at hpart
    cases hpart

end Piece

/-! ### Tokens of a source -/

def Token.lexeme (src : String) (t : Token) : List UInt8 :=
  Text.slice src t.span.start t.span.stop

/-- A token has the kind of its lexeme, unless it is reported. -/
structure Token.Faithful (src : String) (lexed : Lexed) (t : Token) : Prop where
  spells : (∀ d ∈ lexed.diagnostics, d.span ≠ some t.span) →
    t.kind.Spells lexed.names (t.lexeme src) ((Text.bytes src).drop t.span.start)
  /-- Letters and digits before a word are the end of another token. -/
  apart : t.kind.isWord = true → ∀ b ∈ ((Text.bytes src).take t.span.start).getLast?,
    Byte.isWordPart b = true → ∃ u ∈ lexed.tokens, u.span.stop = t.span.start ∧
      u.kind.isWord = false
  huge : t.lexeme src ∈ Numeral.digits → 0x8000000000000000 ≤ Byte.decimal (t.lexeme src) →
    t.kind = .int 0 ∧
      IsLongest Numeral.literals (t.lexeme src) ((Text.bytes src).drop t.span.start) ∧
        ∃ digits, Text.bytes digits = t.lexeme src ∧
          lexed.diagnostics.toList.filter (fun d => decide (d.span = some t.span)) =
            [⟨.lex, "integer literal out of range: " ++ digits, some t.span⟩]

namespace Cut

variable {bytes : List UInt8} {src : String} {c : Cut} {cs : List Cut}

/-- The reports about the place of a cut are its own. -/
theorem reports_at (hcs : cs.Pairwise fun c c' => c.span.start < c'.span.start) (hc : c ∈ cs) :
    (cs.filterMap report?).filter (fun d => decide (d.span = some c.span)) = c.report?.toList := by
  obtain ⟨front, back, rfl⟩ := List.append_of_mem hc
  obtain ⟨-, hback, hfront⟩ := List.pairwise_append.mp hcs
  have hnone (others : List Cut) (hothers : ∀ c' ∈ others, c'.span ≠ c.span) :
      (others.filterMap report?).filter (fun d => decide (d.span = some c.span)) = [] := by
    refine List.filter_eq_nil_iff.mpr fun d hd hsame => ?_
    obtain ⟨c', hc', hreport⟩ := List.mem_filterMap.mp hd
    obtain ⟨fault, -, rfl⟩ := fault_of_report? hreport
    exact hothers c' hc' (Option.some.inj (of_decide_eq_true hsame))
  have hbefore (c' : Cut) (hc' : c' ∈ front) (hsame : c'.span = c.span) : False := by
    have hlt := hfront c' hc' c List.mem_cons_self
    rw [hsame] at hlt
    exact Nat.lt_irrefl _ hlt
  have hbehind (c' : Cut) (hc' : c' ∈ back) (hsame : c'.span = c.span) : False := by
    have hlt := (List.pairwise_cons.mp hback).1 c' hc'
    rw [hsame] at hlt
    exact Nat.lt_irrefl _ hlt
  rw [List.filterMap_append, List.filter_append, hnone front hbefore, List.nil_append]
  cases hreport : c.report? with
  | none => rw [List.filterMap_cons_none hreport, hnone back hbehind]; rfl
  | some d =>
    obtain ⟨fault, -, rfl⟩ := fault_of_report? hreport
    rw [List.filterMap_cons_some hreport, List.filter_cons_of_pos (by simp), hnone back hbehind]
    rfl

/-- A cut whose place no diagnostic has is not at fault. -/
theorem fault?_of_unreported {ds : Diagnostics}
    (hds : c.report?.toList = ds.toList.filter fun d => decide (d.span = some c.span))
    (hclean : ∀ d ∈ ds, d.span ≠ some c.span) : c.piece.fault? = none := by
  have hnone : ds.toList.filter (fun d => decide (d.span = some c.span)) = [] :=
    List.filter_eq_nil_iff.mpr fun d hd hsame =>
      hclean d (Array.mem_toList_iff.mp hd) (of_decide_eq_true hsame)
  rw [hnone, Option.toList_eq_nil_iff] at hds
  exact Option.map_eq_none_iff.mp hds

theorem Of.slice (h : c.Of (Text.bytes src)) :
    Text.slice src c.here.offset c.there.offset = c.lexeme := by
  rw [Text.slice, h.stop, Nat.add_sub_cancel_left, lexeme, h.place]

theorem Of.rest_eq (h : c.Of bytes) : bytes.drop c.here.offset = c.lexeme ++ c.after := by
  rw [lexeme, after, List.take_append_drop, h.place]

theorem Tiles.last {low high : Nat} (h : Tiles low (cs ++ [c]) high) : c.there.offset = high := by
  induction cs generalizing low with
  | nil => exact h.2
  | cons first cs ih => exact ih h.2

/-- The byte before the next cut is the last of this one. -/
theorem Of.getLast?_take (h : c.Of bytes) :
    (bytes.take c.there.offset).getLast? = c.lexeme.getLast? := by
  have htake : bytes.take c.there.offset = bytes.take c.here.offset ++ c.lexeme := by
    rw [h.stop, List.take_add, lexeme, h.place]
  rw [htake, List.getLast?_append_of_ne_nil _ h.front.ne_nil]

end Cut

namespace LexState

variable {s s' : LexState} {c : Cut} {cs : List Cut} {src : String}

/-- Names keep their meaning along a run. -/
theorem Passes.resolve? (h : Passes s cs s') {sym : Symbol} {text : String}
    (hs : s.names.resolve? sym = some text) : s'.names.resolve? sym = some text :=
  h.keeps (fun _ p hs _ => p.resolve?_token hs) hs

/-- A token that does not end the source is the token of a cut. -/
theorem cut_of_lex {limits : Limits} {lexed : Lexed} (hsize : src.utf8ByteSize < Span.limit)
    (h : lex src limits = .ok lexed) :
    ∃ cs s, Passes (.before src) cs s ∧ lexed.names = s.names ∧
      (∀ c ∈ cs, c.report?.toList =
        lexed.diagnostics.toList.filter fun d => decide (d.span = some c.span)) ∧
      (∀ c ∈ cs, ∀ t, c.token? = some t → t ∈ lexed.tokens) ∧
      ∀ t ∈ lexed.tokens, t.kind ≠ .eof → ∃ c ∈ cs, c.token? = some t := by
  obtain ⟨cs, s, hpasses, -, htokens, hreports, hnames⟩ := lex_passes h
  have hstarts : cs.Pairwise fun c c' => c.span.start < c'.span.start := by
    apply (hpasses.tiles.pairwise hpasses.of_before).imp_of_mem
    intro c c' hc hc' hlt
    rw [hpasses.span_eq hsize c hc, hpasses.span_eq hsize c' hc']
    exact hlt.1
  refine ⟨cs, s, hpasses, hnames, fun c hc => ?_, fun c hc t ht => ?_, fun t ht heof => ?_⟩
  · rw [hreports, Cut.reports_at hstarts hc]
  · rw [← Array.mem_toList_iff, htokens]
    exact List.mem_append_left _ (List.mem_filterMap.mpr ⟨c, hc, ht⟩)
  · rw [← Array.mem_toList_iff, htokens, List.mem_append, List.mem_singleton] at ht
    exact List.mem_filterMap.mp (ht.resolve_right fun hlast => heof (hlast ▸ rfl))

/-- A clean piece that gives a token gives one that its bytes spell. -/
theorem Passes.spells (h : Passes (.before src) cs s) (hc : c ∈ cs) (hclean : c.piece.fault? = none)
    {kind : TokenKind} (htoken : (c.piece.token c.names).1 = some kind) :
    kind.Spells s.names c.lexeme (c.lexeme ++ c.after) := by
  obtain ⟨front, s1, back, -, -, -, hcut, hback⟩ := h.split hc
  have hnames : (s1.pass c.piece).names = (c.piece.token c.names).2 := by
    rw [← hcut]
    rfl
  have hfront := (h.of_before c hc).front
  apply (hfront.spells hclean htoken).mono
  intro sym text hsym
  exact hback.resolve? (hnames ▸ hsym)

/-- Letters and digits before a word end another token. -/
theorem Passes.apart (h : Passes (.before src) cs s) (hc : c ∈ cs) {kind : TokenKind}
    (htoken : (c.piece.token c.names).1 = some kind) (hword : kind.isWord = true) {b : UInt8}
    (hb : ((Text.bytes src).take c.here.offset).getLast? = some b)
    (hpart : Byte.isWordPart b = true) :
    ∃ c' ∈ cs, c'.there.offset = c.here.offset ∧
      ∃ kind', (c'.piece.token c'.names).1 = some kind' ∧ kind'.isWord = false := by
  obtain ⟨front, s1, back, rfl, hfront, -, hcut, -⟩ := h.split hc
  have hcs := h.of_before
  have hhere : s1.here.offset = c.here.offset := by
    rw [← hcut]
    rfl
  rcases List.eq_nil_or_concat front with rfl | ⟨front, c', hconcat⟩
  · cases hfront
    rw [← hhere] at hb
    cases hb
  · rw [List.concat_eq_append] at hconcat
    subst hconcat
    have hend : c'.there.offset = c.here.offset := hhere ▸ hfront.tiles.last
    have hc' : c' ∈ front ++ [c'] ++ c :: back := by simp
    have hof := hcs c' hc'
    obtain ⟨d, tail, hd, hstart⟩ := (hcs c hc).front.head_of_word htoken hword
    -- Were the cut before it a word, it would have taken the first letter as well.
    have hnext : c'.after.head? = some d := by
      rw [hof.after_eq, hend]
      exact (congrArg List.head? (hcs c hc).rest_eq).trans (by rw [hd]; rfl)
    rw [← hend, hof.getLast?_take] at hb
    exact ⟨c', hc', hend, hof.front.token_of_part hb hpart hnext hstart⟩

end LexState

/-- Every token of a source whose offsets fit has the kind that its lexeme spells,
and its lexeme could be no longer. -/
theorem lexemes_longest {src : String} (hsize : src.utf8ByteSize < Span.limit) {limits : Limits}
    {lexed : Lexed} (h : lex src limits = .ok lexed) :
    ∀ t ∈ lexed.tokens, t.kind ≠ .eof → t.Faithful src lexed := by
  obtain ⟨cs, s, hpasses, hnames, hreports, htokens, hcuts⟩ := LexState.cut_of_lex hsize h
  intro t ht heof
  obtain ⟨c, hc, hct⟩ := hcuts t ht heof
  obtain ⟨htoken, hspan⟩ := Cut.kind_of_token? hct
  have hof := hpasses.of_before c hc
  have hplace : t.span = c.place := hspan.trans (hpasses.span_eq hsize c hc)
  have hlexeme : t.lexeme src = c.lexeme := by
    rw [Token.lexeme, hplace]
    exact hof.slice
  have hrest : (Text.bytes src).drop t.span.start = c.lexeme ++ c.after := by
    rw [hplace]
    exact hof.rest_eq
  constructor
  case spells =>
    intro hclean
    rw [hspan] at hclean
    rw [hlexeme, hrest, hnames]
    exact hpasses.spells hc (Cut.fault?_of_unreported (hreports c hc) hclean) htoken
  case apart =>
    intro hword b hb hpart
    rw [hplace] at hb ⊢
    obtain ⟨c', hc', hend, kind, hkind, hother⟩ := hpasses.apart hc htoken hword hb hpart
    refine ⟨⟨kind, c'.place⟩, htokens c' hc' _ ?_, hend, hother⟩
    rw [Cut.token?, hkind, Option.map_some, hpasses.span_eq hsize c' hc']
  case huge =>
    rw [hlexeme, hrest, hspan, ← hreports c hc]
    intro hdigits hlarge
    obtain ⟨hzero, hfault, hlongest⟩ := hof.front.huge hdigits hlarge htoken
    refine ⟨hzero, hlongest, Text.ofLatin1 c.lexeme, ?_, ?_⟩
    · exact Text.bytes_ofLatin1 fun b hb =>
        Byte.lt_of_part (Byte.isWordPart_of_digit (hdigits.2 b hb))
    · rw [Cut.report?, hfault]
      rfl

/-- A keyword, a name behind a number, a double, a range and a number out of range. -/
theorem lexemes_longest_sample :
    (lex "if 0x1 1.5e3e 0..=99999999999999999999" {}).isOk = true ∧
      ∃ lexed, lex "if 0x1 1.5e3e 0..=99999999999999999999" {} = .ok lexed ∧
        lexed.tokens.toList.map (·.kind) =
          [.keyword .ifKw, .int 0, .ident 0, .float ⟨0x4097700000000000⟩, .ident 1, .int 0,
            .punct .dotDotEq, .int 0, .eof] ∧
        ∀ t ∈ lexed.tokens, t.kind ≠ .eof →
          t.Faithful "if 0x1 1.5e3e 0..=99999999999999999999" lexed := by
  have hok : (lex "if 0x1 1.5e3e 0..=99999999999999999999" {}).isOk = true := by decide +kernel
  obtain ⟨lexed, hlexed⟩ := exists_of_isOk hok
  have hkinds : (lex "if 0x1 1.5e3e 0..=99999999999999999999" {}).map
      (·.tokens.toList.map (·.kind)) =
        .ok [.keyword .ifKw, .int 0, .ident 0, .float ⟨0x4097700000000000⟩, .ident 1, .int 0,
          .punct .dotDotEq, .int 0, .eof] := by decide +kernel
  rw [hlexed] at hkinds
  exact ⟨hok, lexed, hlexed, Except.ok.inj hkinds,
    lexemes_longest (by decide +kernel) hlexed⟩

/-! ### Behind the limit -/

/-- A name behind lines of one blank each. -/
def nameBehind (lines : Nat) : String :=
  String.ofList ((List.replicate lines [' ', '\n']).flatten ++ ['a'])

theorem bytes_nameBehind (lines : Nat) :
    ∃ blanks, Text.bytes (nameBehind lines) = blanks ++ [97] ∧ blanks.length = 2 * lines ∧
      ∀ b ∈ blanks, Byte.isBlank b = true := by
  rw [nameBehind, Text.bytes_eq, String.toList_ofList]
  induction lines with
  | zero => exact ⟨[], rfl, rfl, by simp⟩
  | succ lines ih =>
    obtain ⟨blanks, hbytes, hlength, hblanks⟩ := ih
    refine ⟨32 :: 10 :: blanks, ?_, by rw [List.length_cons, List.length_cons, hlength]; omega, ?_⟩
    · rw [List.replicate_succ, List.flatten_cons, List.append_assoc, List.flatMap_append, hbytes]
      rfl
    · exact List.forall_mem_cons.mpr ⟨rfl, List.forall_mem_cons.mpr ⟨rfl, hblanks⟩⟩

/-- The name is read, and its span starts anew at each multiple of the limit. -/
theorem lex_nameBehind (lines : Nat) :
    ∃ lexed, lex (nameBehind lines) {} = .ok lexed ∧ lexed.diagnostics = #[] ∧
      ∃ t ∈ lexed.tokens, t.kind = .ident 0 ∧ t.span.start = 2 * lines % Span.limit ∧
        t.span.stop = (2 * lines + 1) % Span.limit := by
  obtain ⟨blanks, hbytes, hlength, hblanks⟩ := bytes_nameBehind lines
  have hreads : LexState.Reads .empty (Text.bytes (nameBehind lines)) [.ident 0]
      (Interner.empty.intern "a").2 := by
    apply LexState.reads_of_dropWhile
    rw [hbytes, List.dropWhile_append_of_pos hblanks]
    exact LexState.reads_token (p := .word [97]) rfl (by decide) rfl rfl (LexState.reads_end _)
  have hroom : [TokenKind.ident 0].length < ({} : Limits).clamped.maxTokens := by decide
  obtain ⟨tokens, hlex, hkinds⟩ := lex_of_reads hreads hroom
  obtain ⟨cs, s, row, hpasses, -, hrow, hcuts⟩ := placed_of_lex hlex
  obtain ⟨p, hp, hkind⟩ : ∃ p ∈ row, p.token.kind = .ident 0 := by
    have hmem : .ident 0 ∈ (row.map (·.token)).map Token.kind := by
      rw [hrow.tokens, hkinds]
      exact List.mem_cons_self
    rwa [List.map_map, List.mem_map] at hmem
  obtain ⟨c, hc, hcp⟩ := hcuts p hp (by rw [hkind]; nofun)
  obtain ⟨htoken, hstart, hstop⟩ := Cut.of_placed? hcp
  have hof := hpasses.of_before c hc
  -- A name starts with a letter, and the only one stands behind all blanks.
  have hhere : c.here.offset = 2 * lines := by
    obtain ⟨d, tail, hd, hpart⟩ := hof.front.head_of_word htoken (by rw [hkind]; rfl)
    have hbyte : (blanks ++ [97])[c.here.offset]? = some d := by
      rw [← hbytes, ← List.head?_drop, hof.rest_eq, hd]
      rfl
    have hbehind : blanks.length ≤ c.here.offset := by
      apply Nat.le_of_not_lt
      intro hlt
      rw [List.getElem?_append_left hlt] at hbyte
      have hblank := hblanks d (List.mem_of_getElem? hbyte)
      rw [Byte.isBlank_of_part hpart] at hblank
      cases hblank
    have hbound := (List.getElem?_eq_some_iff.mp hbyte).1
    rw [List.length_append, List.length_singleton] at hbound
    omega
  have hthere : c.there.offset = 2 * lines + 1 := by
    have hlt := hof.start_lt
    have hle := hof.stop_le
    rw [hbytes, List.length_append, hlength, List.length_singleton] at hle
    omega
  refine ⟨_, hlex, rfl, p.token, ?_, hkind, ?_, ?_⟩
  · rw [← Array.mem_toList_iff, ← hrow.tokens]
    exact List.mem_map_of_mem hp
  · rw [p.span_start, hstart, hhere]
  · rw [p.span_stop, hstop, hthere]

/-- Behind the limit a name has the span of a blank. -/
theorem lexemes_longest_beyond : ∃ lexed, lex (nameBehind 2147483648) {} = .ok lexed ∧
    ∃ t ∈ lexed.tokens, t.kind = .ident 0 ∧ ¬t.Faithful (nameBehind 2147483648) lexed := by
  obtain ⟨lexed, hlex, hclean, t, ht, hkind, hstart, hstop⟩ := lex_nameBehind 2147483648
  refine ⟨lexed, hlex, t, ht, hkind, fun h => ?_⟩
  have hspells := h.spells (by simp [hclean])
  obtain ⟨blanks, hbytes, hlength, hblanks⟩ := bytes_nameBehind 2147483648
  have hlexeme : ∃ b ∈ blanks, t.lexeme (nameBehind 2147483648) = [b] := by
    rw [Token.lexeme, hstart, hstop, Text.slice, hbytes]
    cases blanks with
    | nil => cases hlength
    | cons b blanks => exact ⟨b, List.mem_cons_self, rfl⟩
  obtain ⟨b, hb, hlexeme⟩ := hlexeme
  rw [hkind, hlexeme] at hspells
  obtain ⟨d, tail, hd, hword, -⟩ := hspells.1.1
  cases hd
  have hblank := hblanks b hb
  rw [Byte.isBlank_of_part (Byte.isWordPart_of_start hword)] at hblank
  cases hblank

end StagedCompiler
