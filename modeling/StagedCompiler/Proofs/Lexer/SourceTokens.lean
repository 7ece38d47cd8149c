import StagedCompiler.Proofs.Parser.Totality

/-!
The tokens of a source. Every token but the closing one is made of a piece of
the source, so what holds of the tokens of all pieces holds of them. Names
keep their meaning while the table of names grows.
-/

namespace StagedCompiler

namespace Interner

variable {t : Interner} {text : String} {sym : Symbol}

theorem resolve?_intern : (t.intern text).2.resolve? (t.intern text).1 = some text := by
  unfold intern
  split
  · next sym hsym => exact (t.index_iff text sym).mp hsym
  · simp [resolve?, append]

theorem resolve?_intern_old {old : String} (h : t.resolve? sym = some old) :
    (t.intern text).2.resolve? sym = some old := by
  unfold intern
  split
  · exact h
  · have hlt : sym < t.strings.size := (Array.getElem?_eq_some_iff.mp h).1
    simp only [resolve?, append, Array.getElem?_push_lt hlt]
    rw [← Array.getElem?_eq_getElem hlt]
    exact h

end Interner

/-- The table of names after a piece still has the names from before. -/
theorem Piece.resolve?_token {names : Interner} {sym : Symbol} {text : String} (p : Piece)
    (h : names.resolve? sym = some text) : (p.token names).2.resolve? sym = some text := by
  cases p with
  | numeral literal =>
    simp only [token]
    split
    · exact h
    · exact h
  | word lexeme =>
    simp only [token]
    split
    · exact h
    · exact Interner.resolve?_intern_old h
  | string length content closed => exact Interner.resolve?_intern_old h
  | _ => exact h

namespace LexState

variable {maxTokens fuel : Nat} {s s' : LexState} {P : Interner → TokenKind → Prop}

theorem names_push {t : Token} (h : s.push maxTokens t = .ok s') : s'.names = s.names := by
  rw [(push_ok_iff.mp h).2]

/-- What holds of the token of every piece that is met, and goes on to hold
while names are added, holds of all tokens but the last. -/
theorem run_tokens
    (hpiece : ∀ (p : Piece) bytes names kind names', Piece.atFront? bytes = some p →
      p.token names = (some kind, names') → P names' kind)
    (hgrow : ∀ (p : Piece) names kind, P names kind → P (p.token names).2 kind)
    (hs : ∀ t ∈ s.tokens, P s.names t.kind) (h : run maxTokens fuel s = .ok s') :
    ∃ (before : Array Token) (span : Span),
      s'.tokens = before.push ⟨.eof, span⟩ ∧ ∀ t ∈ before, P s'.names t.kind := by
  revert hs
  refine run_induction (P := fun _ s => (∀ t ∈ s.tokens, P s.names t.kind) → _) ?_ ?_ h
  · intro _ s _ hpush hs
    exact ⟨s.tokens, _, tokens_push hpush, names_push hpush ▸ hs⟩
  · intro _ p s s1 hp hread ih hs
    apply ih
    unfold read at hread
    dsimp only at hread
    have hkept : ∀ t ∈ s.tokens, P (p.token s.names).2 t.kind :=
      fun t ht => hgrow p s.names t.kind (hs t ht)
    split at hread
    · next kind names htoken =>
      intro t ht
      rw [names_push hread]
      rw [tokens_push hread] at ht
      rcases Array.mem_push.mp ht with hold | rfl
      · rw [htoken] at hkept
        exact hkept t hold
      · exact hpiece p s.rest s.names kind names hp htoken
    · next names htoken =>
      cases hread
      rw [htoken] at hkept
      exact hkept

end LexState

section

variable {src : String} {limits : Limits} {lexed : Lexed}

theorem lex_tokens_of_front {P : Interner → TokenKind → Prop}
    (hpiece : ∀ (p : Piece) bytes names kind names', Piece.atFront? bytes = some p →
      p.token names = (some kind, names') → P names' kind)
    (hgrow : ∀ (p : Piece) names kind, P names kind → P (p.token names).2 kind)
    (h : lex src limits = .ok lexed) :
    ∃ (before : Array Token) (span : Span),
      lexed.tokens = before.push ⟨.eof, span⟩ ∧ ∀ t ∈ before, P lexed.names t.kind := by
  obtain ⟨s, hrun, rfl⟩ := lex_ok_iff.mp h
  exact LexState.run_tokens hpiece hgrow (by simp) hrun

theorem lex_tokens_of_pieces {P : TokenKind → Prop}
    (hpiece : ∀ (p : Piece) names kind, (p.token names).1 = some kind → P kind)
    (h : lex src limits = .ok lexed) :
    ∃ (before : Array Token) (span : Span),
      lexed.tokens = before.push ⟨.eof, span⟩ ∧ ∀ t ∈ before, P t.kind := by
  apply lex_tokens_of_front (P := fun _ kind => P kind) _ (fun _ _ _ hkind => hkind) h
  intro p _ names kind _ _ htoken
  exact hpiece p names kind (by rw [htoken])

theorem splitEof_push (before : Array Token) (span : Span) :
    splitEof (before.push ⟨.eof, span⟩) = (before.toList, span) := by
  simp [splitEof]

theorem mem_of_mem_splitEof {tokens : Array Token} {t : Token} (h : t ∈ (splitEof tokens).1) :
    t ∈ tokens := by
  unfold splitEof at h
  split at h
  · cases h
  · split at h
    · rw [Array.toList_pop] at h
      exact Array.mem_toList_iff.mp ((List.dropLast_sublist _).subset h)
    · exact Array.mem_toList_iff.mp h

theorem Piece.token_ne_eof (p : Piece) (names : Interner) (kind : TokenKind)
    (h : (p.token names).1 = some kind) : kind ≠ .eof := by
  obtain ⟨_, hgives⟩ := Piece.gives_fst h
  cases hgives <;> nofun

/-- Numbers of tokens fit into 63 bits. -/
theorem Piece.token_int (p : Piece) (names : Interner) (kind : TokenKind)
    (h : (p.token names).1 = some kind) (v : Int) (hv : kind = .int v) :
    0 ≤ v ∧ v < 0x8000000000000000 := by
  subst hv
  obtain ⟨_, hgives⟩ := Piece.gives_fst h
  cases hgives with
  | int literal =>
    unfold Numeral.toInt?
    dsimp only
    split
    · split
      · rw [Option.getD_some]
        omega
      · decide
    · decide

theorem lex_int (h : lex src limits = .ok lexed) {t : Token} (ht : t ∈ (splitEof lexed.tokens).1)
    {v : Int} (hv : t.kind = .int v) : 0 ≤ v ∧ v < 0x8000000000000000 := by
  obtain ⟨before, span, htokens, hbefore⟩ := lex_tokens_of_pieces Piece.token_int h
  rw [htokens, splitEof_push] at ht
  exact hbefore t (Array.mem_toList_iff.mp ht) v hv

def IsWord (text : String) : Prop :=
  ∃ lexeme : List UInt8, text = Text.ofLatin1 lexeme ∧ ∀ b ∈ lexeme, Byte.isWordPart b = true

theorem Piece.word_of_atFront? {bytes lexeme : List UInt8}
    (h : Piece.atFront? bytes = some (.word lexeme)) : ∀ b ∈ lexeme, Byte.isWordPart b = true := by
  cases bytes with
  | nil => cases h
  | cons b rest =>
    have hchar (bytes : List UInt8) : charLiteral bytes ≠ .word lexeme := by
      unfold charLiteral charEnd
      grind
    unfold atFront? at h
    have hlexeme : (b :: rest).takeWhile Byte.isWordPart = lexeme := by grind
    rw [← hlexeme]
    exact List.all_eq_true.mp List.all_takeWhile

/-- The token is no name, or a word of the table. -/
def NamesWord (names : Interner) (kind : TokenKind) : Prop :=
  ∀ sym, kind = .ident sym → ∃ text, names.resolve? sym = some text ∧ IsWord text

theorem Piece.namesWord_token {p : Piece} {bytes : List UInt8} {names names' : Interner}
    {kind : TokenKind} (hp : Piece.atFront? bytes = some p)
    (h : p.token names = (some kind, names')) : NamesWord names' kind := by
  intro sym hsym
  subst hsym
  cases Piece.gives h with
  | ident lexeme => exact ⟨_, Interner.resolve?_intern, lexeme, rfl, Piece.word_of_atFront? hp⟩

theorem NamesWord.token {p : Piece} {names : Interner} {kind : TokenKind}
    (h : NamesWord names kind) : NamesWord (p.token names).2 kind := by
  intro sym hsym
  obtain ⟨text, htext, hword⟩ := h sym hsym
  exact ⟨text, p.resolve?_token htext, hword⟩

theorem lex_namesWord (h : lex src limits = .ok lexed) {t : Token}
    (ht : t ∈ (splitEof lexed.tokens).1) : NamesWord lexed.names t.kind := by
  obtain ⟨before, span, htokens, hbefore⟩ := lex_tokens_of_front
    (fun _ _ _ _ _ => Piece.namesWord_token) (fun _ _ _ => NamesWord.token) h
  rw [htokens, splitEof_push] at ht
  exact hbefore t (Array.mem_toList_iff.mp ht)

/-- Names of a source are words. -/
theorem lex_ident (h : lex src limits = .ok lexed) {t : Token} (ht : t ∈ (splitEof lexed.tokens).1)
    {sym : Symbol} (hsym : t.kind = .ident sym) : IsWord (lexed.names.resolve sym) := by
  obtain ⟨text, htext, hword⟩ := lex_namesWord h ht sym hsym
  rw [Interner.resolve, htext]
  exact hword

end

end StagedCompiler
