import StagedCompiler.Proofs.Lexer.SourceSpelling
import StagedCompiler.Proofs.Parser.LimitGates

/-!
Reading undoes writing. Fillers between tokens are skipped, whatever they hold;
each token is read as the piece that it was written as, and its text gets the
symbol that it keeps to the end. Main statement: a source written from tokens
is read as these tokens, with one symbol for each text.
-/

namespace StagedCompiler

/-! ### Fillers are skipped -/

namespace Piece

/-- A line comment goes up to the end of its line. -/
theorem atFront?_line {text rest : List UInt8} (h : 10 ∉ text) :
    atFront? (47 :: 47 :: (text ++ 10 :: rest)) = some (.lineComment (text.length + 2)) := by
  have hplain : ∀ b ∈ 47 :: 47 :: text, (b != 10) = true := by
    intro b hb
    rw [bne_iff_ne]
    rintro rfl
    simp [h] at hb
  have htake : (47 :: 47 :: (text ++ 10 :: rest)).takeWhile (· != 10) = 47 :: 47 :: text :=
    (List.takeWhile_append_of_pos hplain).trans (by simp)
  have hfront : atFront? (47 :: 47 :: (text ++ 10 :: rest)) =
      some (.lineComment ((47 :: 47 :: (text ++ 10 :: rest)).takeWhile (· != 10)).length) := rfl
  rw [hfront, htake]
  rfl

/-- A block comment goes up to the first `*/`. -/
theorem blockEnd_closed {text rest : List UInt8} (h : ¬[42, 47] <:+: text) (seen : Nat) :
    blockEnd seen (text ++ 42 :: 47 :: rest) = (seen + text.length + 2, true) := by
  induction text generalizing seen with
  | nil => simp [blockEnd]
  | cons b text ih =>
    have hopen : ¬(b = 42 ∧ (text ++ 42 :: 47 :: rest).head? = some 47) := by
      rintro ⟨rfl, hnext⟩
      cases text with
      | nil => cases hnext
      | cons d text =>
        cases hnext
        exact h (List.infix_append [] [42, 47] text)
    have htail : ¬[42, 47] <:+: text := fun hin => h (hin.trans (List.suffix_cons b text).isInfix)
    rw [List.cons_append, blockEnd, if_neg hopen, ih htail, List.length_cons]
    congr 1
    omega

theorem atFront?_block {text rest : List UInt8} (h : ¬[42, 47] <:+: text) :
    atFront? (47 :: 42 :: (text ++ 42 :: 47 :: rest)) =
      some (.blockComment (text.length + 4) true) := by
  have hfront : atFront? (47 :: 42 :: (text ++ 42 :: 47 :: rest)) =
      some (.blockComment (blockEnd 2 (text ++ 42 :: 47 :: rest)).1
        (blockEnd 2 (text ++ 42 :: 47 :: rest)).2) := rfl
  rw [hfront, blockEnd_closed h]
  congr 2
  omega

/-- Only a blank piece starts with a blank. -/
theorem dropWhile_of_atFront? {bytes : List UInt8} {p : Piece} (h : atFront? bytes = some p)
    (hp : ∀ n, p ≠ .blank n) : bytes.dropWhile Byte.isBlank = bytes := by
  cases bytes with
  | nil => rfl
  | cons b rest =>
    apply List.dropWhile_cons_of_neg
    intro hb
    rw [atFront?, if_pos hb] at h
    exact hp _ (Option.some.inj h).symm

end Piece

theorem Blank.bytes (blank : Blank) :
    ∃ b, Text.bytes (String.ofList [blank.char]) = [b] ∧ Byte.isBlank b = true := by
  obtain ⟨c, hc⟩ := blank
  simp only [List.mem_cons, List.not_mem_nil, or_false] at hc
  rcases hc with rfl | rfl | rfl | rfl | rfl <;> exact ⟨_, rfl, rfl⟩

namespace LexState

variable {names names' : Interner} {bytes rest : List UInt8} {kinds : List TokenKind}

/-- Blanks at the front are passed over. -/
theorem reads_of_dropWhile (h : Reads names (bytes.dropWhile Byte.isBlank) kinds names') :
    Reads names bytes kinds names' := by
  cases bytes with
  | nil => exact h
  | cons b rest =>
    by_cases hb : Byte.isBlank b = true
    · have hfront : Piece.atFront? (b :: rest) =
          some (.blank ((b :: rest).takeWhile Byte.isBlank).length) := by
        rw [Piece.atFront?, if_pos hb]
      have hdrop : ((b :: rest).takeWhile Byte.isBlank ++ (b :: rest).dropWhile Byte.isBlank).drop
          ((b :: rest).takeWhile Byte.isBlank).length = (b :: rest).dropWhile Byte.isBlank :=
        List.drop_left
      rw [List.takeWhile_append_dropWhile] at hdrop
      rw [← hdrop] at h
      refine reads_blank hfront ?_ rfl rfl h
      rw [Piece.length, List.takeWhile_cons_of_pos hb]
      exact Nat.succ_pos _
    · rwa [List.dropWhile_cons_of_neg hb] at h

/-- A filler counts as little as a blank does. -/
theorem reads_filler (filler : Filler)
    (h : Reads names (rest.dropWhile Byte.isBlank) kinds names') :
    Reads names ((Text.bytes filler.spelling ++ rest).dropWhile Byte.isBlank) kinds names' := by
  cases filler with
  | blank b =>
    obtain ⟨byte, hbytes, hblank⟩ := b.bytes
    rw [Filler.spelling, hbytes, List.singleton_append, List.dropWhile_cons_of_pos hblank]
    exact h
  | line text oneLine =>
    have hbytes : Text.bytes (Filler.line text oneLine).spelling ++ rest =
        47 :: 47 :: (Text.bytes text ++ 10 :: rest) := by
      rw [Filler.spelling, Text.bytes_append, Text.bytes_append]
      simp [show Text.bytes "//" = [47, 47] from rfl, show Text.bytes "\n" = [10] from rfl]
    have hfront : Piece.atFront? (47 :: 47 :: (Text.bytes text ++ 10 :: rest)) = _ :=
      Piece.atFront?_line oneLine
    rw [hbytes, Piece.dropWhile_of_atFront? hfront (by simp)]
    apply reads_blank hfront (Nat.succ_pos _) rfl rfl
    -- The comment ends before the line does.
    apply reads_of_dropWhile
    simpa [Piece.length, Byte.isBlank] using h
  | block text unclosed =>
    have hbytes : Text.bytes (Filler.block text unclosed).spelling ++ rest =
        47 :: 42 :: (Text.bytes text ++ 42 :: 47 :: rest) := by
      rw [Filler.spelling, Text.bytes_append, Text.bytes_append]
      simp [show Text.bytes "/*" = [47, 42] from rfl, show Text.bytes "*/" = [42, 47] from rfl]
    have hfront : Piece.atFront? (47 :: 42 :: (Text.bytes text ++ 42 :: 47 :: rest)) = _ :=
      Piece.atFront?_block unclosed
    rw [hbytes, Piece.dropWhile_of_atFront? hfront (by simp)]
    apply reads_blank hfront (Nat.succ_pos _) rfl rfl
    apply reads_of_dropWhile
    simpa [Piece.length] using h

theorem reads_fillers (fillers : List Filler)
    (h : Reads names (rest.dropWhile Byte.isBlank) kinds names') :
    Reads names ((Text.bytes (Filler.write fillers) ++ rest).dropWhile Byte.isBlank) kinds
      names' := by
  induction fillers with
  | nil => exact h
  | cons filler more ih =>
    rw [Filler.write, Text.bytes_append, List.append_assoc]
    exact reads_filler filler ih

end LexState

theorem Gap.apart (gap : Gap) (rest : List UInt8) :
    ∀ b ∈ (Text.bytes gap.spelling ++ rest).head?, Byte.isBlank b = true := by
  obtain ⟨b, hbytes, hblank⟩ := gap.first.bytes
  rw [Gap.spelling, Filler.write, Text.bytes_append, Filler.spelling, hbytes]
  intro d hd
  cases hd
  exact hblank

/-! ### Symbols last -/

theorem Interner.intern_of_resolve? {names : Interner} {sym : Symbol} {text : String}
    (h : names.resolve? sym = some text) : (names.intern text).1 = sym := by
  have hindex := (names.index_iff text sym).mpr h
  unfold intern
  split
  · next other hother => exact Option.some.inj (hother.symm.trans hindex)
  · next hnone => exact absurd (hnone.symm.trans hindex) nofun

namespace SourceToken

theorem resolve?_intern {names : Interner} {sym : Symbol} {text : String} (t : SourceToken)
    (h : names.resolve? sym = some text) : (intern names t).resolve? sym = some text := by
  unfold intern
  split
  · exact Interner.resolve?_intern_old h
  · exact h

theorem resolve?_foldl {names : Interner} {sym : Symbol} {text : String}
    (tokens : List SourceToken) (h : names.resolve? sym = some text) :
    (tokens.foldl intern names).resolve? sym = some text := by
  induction tokens generalizing names with
  | nil => exact h
  | cons t tokens ih => exact ih (resolve?_intern t h)

/-- The symbol that a token gives its text is still its symbol after more tokens. -/
theorem resolve?_later {names : Interner} {text : String} {t : SourceToken}
    (more : List SourceToken) (h : t.text? = some text) :
    (more.foldl intern (intern names t)).resolve? (names.intern text).1 = some text := by
  apply resolve?_foldl
  rw [intern, h]
  exact Interner.resolve?_intern

theorem kind_congr {symbol symbol' : String → Symbol} {t : SourceToken}
    (h : ∀ text, t.text? = some text → symbol text = symbol' text) :
    t.kind symbol = t.kind symbol' := by
  cases t with
  | ident name => exact congrArg TokenKind.ident (h _ rfl)
  | str text => exact congrArg TokenKind.str (h _ rfl)
  | _ => rfl

/-! ### Token by token -/

def after (gap : Nat → Gap) : List SourceToken → String
  | [] => ""
  | u :: more => (gap 0).spelling ++ write (fun i => gap (i + 1)) (u :: more)

theorem write_cons (gap : Nat → Gap) (t : SourceToken) (more : List SourceToken) :
    write gap (t :: more) = t.spelling ++ after gap more := by
  cases more with
  | nil => exact String.append_empty.symm
  | cons u more => rfl

theorem apart_after (gap : Nat → Gap) (more : List SourceToken) (t : SourceToken) :
    ∀ b ∈ (Text.bytes (after gap more)).head?, t.joins b = false := by
  cases more with
  | nil =>
    intro b hb
    cases hb
  | cons u more =>
    rw [after, Text.bytes_append]
    exact fun b hb => joins_blank ((gap 0).apart _ b hb) t

theorem dropWhile_write (gap : Nat → Gap) (tokens : List SourceToken) :
    (Text.bytes (write gap tokens)).dropWhile Byte.isBlank = Text.bytes (write gap tokens) := by
  cases tokens with
  | nil => rfl
  | cons t more =>
    rw [write_cons, Text.bytes_append]
    apply Piece.dropWhile_of_atFront? (atFront?_piece (apart_after gap more t))
    cases t <;> exact nofun

open LexState in
theorem reads_after {names names' : Interner} {kinds : List TokenKind} {gap : Nat → Gap}
    {more : List SourceToken}
    (h : Reads names (Text.bytes (write (fun i => gap (i + 1)) more)) kinds names') :
    Reads names (Text.bytes (after gap more)) kinds names' := by
  cases more with
  | nil => exact h
  | cons u more =>
    rw [after, Text.bytes_append]
    rw [← dropWhile_write] at h
    exact reads_of_dropWhile (reads_fillers _ h)

/-- The symbols of the texts are those of the table in the end. -/
theorem reads_cons {names : Interner} {t : SourceToken} {more : List SourceToken}
    {rest : List UInt8} (hrest : ∀ b ∈ rest.head?, t.joins b = false)
    (h : LexState.Reads (intern names t) rest
      (more.map (kind fun text => ((more.foldl intern (intern names t)).intern text).1))
      (more.foldl intern (intern names t))) :
    LexState.Reads names (Text.bytes t.spelling ++ rest)
      ((t :: more).map (kind fun text => (((t :: more).foldl intern names).intern text).1))
      ((t :: more).foldl intern names) := by
  have hkind : t.kind (fun text => (names.intern text).1) =
      t.kind fun text => (((t :: more).foldl intern names).intern text).1 :=
    kind_congr fun text htext => (Interner.intern_of_resolve? (resolve?_later more htext)).symm
  rw [List.map_cons, ← hkind]
  apply LexState.reads_token (atFront?_piece hrest) t.length_piece_pos t.fault?_piece
    (t.token_piece names)
  rw [length_piece, List.drop_left]
  exact h

theorem reads_write (names : Interner) (gap : Nat → Gap) (tokens : List SourceToken) :
    LexState.Reads names (Text.bytes (write gap tokens))
      (tokens.map (kind fun text => ((tokens.foldl intern names).intern text).1))
      (tokens.foldl intern names) := by
  induction tokens generalizing names gap with
  | nil => exact LexState.reads_end names
  | cons t more ih =>
    rw [write_cons, Text.bytes_append]
    exact reads_cons (apart_after gap more t) (reads_after (ih (intern names t) _))

theorem resolve?_symbol {tokens : List SourceToken} {text : String}
    (h : text ∈ tokens.filterMap text?) (names : Interner) :
    (tokens.foldl intern names).resolve? ((tokens.foldl intern names).intern text).1 =
      some text := by
  obtain ⟨t, ht, htext⟩ := List.mem_filterMap.mp h
  obtain ⟨before, more, rfl⟩ := List.append_of_mem ht
  have hlater : ((before ++ t :: more).foldl intern names).resolve?
      ((before.foldl intern names).intern text).1 = some text := by
    rw [List.foldl_append]
    exact resolve?_later more htext
  rwa [Interner.intern_of_resolve? hlater]

end SourceToken

/-- Tokens that are written one behind the other, with gaps between them, are
read back as they were, whatever the mode, and the end of the source after
them. Each text has one symbol, and the symbol gives the text back. -/
theorem tokenize_write (tokens : List SourceToken) (gap : Nat → Gap) (opts : Options)
    (hroom : tokens.length < opts.limits.clamped.maxTokens) :
    ∃ (lexed : Lexed) (symbol : String → Symbol),
      tokenize (SourceToken.write gap tokens) opts = .ok lexed ∧ lexed.diagnostics = #[] ∧
        lexed.tokens.toList.map Token.kind = tokens.map (SourceToken.kind symbol) ++ [.eof] ∧
        ∀ text ∈ tokens.filterMap SourceToken.text?,
          lexed.names.resolve? (symbol text) = some text := by
  obtain ⟨read, hlex, hkinds⟩ := lex_of_reads (SourceToken.reads_write .empty gap tokens)
    (by rwa [List.length_map])
  refine ⟨_, _, tokenize_ok_iff.mpr ⟨hlex, fun _ => rfl⟩, rfl, hkinds, fun text htext => ?_⟩
  exact SourceToken.resolve?_symbol htext .empty

def mixedTokens : List SourceToken :=
  [.keyword .fnKw, .ident ⟨"q_1", by decide, by intro word; cases word <;> decide⟩, .punct .slash,
    .int 9223372036854775807 (by decide), .str "\"/*é\\", .char 39 (by decide), .str "q_1"]

def mixedGap : Gap where
  first := ⟨'\t', by decide⟩
  more := [.block "/* // \"*" (by decide), .line " don't /*" (by decide), .blank ⟨' ', by decide⟩]

/-- They come back under the least limit, in strict mode. -/
theorem tokenize_write_mixed :
    mixedTokens.length < (⟨8, 0, 0, 0⟩ : Limits).clamped.maxTokens ∧
      ∃ (lexed : Lexed) (symbol : String → Symbol),
        tokenize (SourceToken.write (fun _ => mixedGap) mixedTokens)
          { mode := .strict, limits := ⟨8, 0, 0, 0⟩ } = .ok lexed ∧ lexed.diagnostics = #[] ∧
        lexed.tokens.toList.map Token.kind =
          [.keyword .fnKw, .ident (symbol "q_1"), .punct .slash, .int 9223372036854775807,
            .str (symbol "\"/*é\\"), .char 39, .str (symbol "q_1"), .eof] ∧
        ∀ text ∈ ["q_1", "\"/*é\\", "q_1"], lexed.names.resolve? (symbol text) = some text := by
  have hroom : mixedTokens.length < (⟨8, 0, 0, 0⟩ : Limits).clamped.maxTokens := by decide
  exact ⟨hroom, tokenize_write mixedTokens (fun _ => mixedGap)
    { mode := .strict, limits := ⟨8, 0, 0, 0⟩ } hroom⟩

end StagedCompiler
