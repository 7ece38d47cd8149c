import StagedCompiler.Proofs.Lexer.SourceCuts

/-!
Streams that say the same. The symbols of a stream are numbered as its texts
come, so kinds and texts, token by token, decide the symbols and the table of
names. How far a stream is read under a token limit depends on its length, and
what is reported up to there on the stream.
-/

namespace StagedCompiler

namespace TokenKind

def bare : TokenKind → TokenKind
  | .ident _ => .ident 0
  | .str _ => .str 0
  | kind => kind

def symbol? : TokenKind → Option Symbol
  | .ident sym | .str sym => some sym
  | _ => none

def text? (names : Interner) (kind : TokenKind) : Option String :=
  kind.symbol?.map names.resolve

def spelled (names : Interner) (kind : TokenKind) : TokenKind × Option String :=
  (kind.bare, kind.text? names)

theorem eq_of_bare {kind kind' : TokenKind} (hbare : kind.bare = kind'.bare)
    (hsymbol : kind.symbol? = kind'.symbol?) : kind = kind' := by
  cases kind <;> cases kind' <;> simp_all [bare, symbol?]

end TokenKind

/-! ### Tables of names -/

/-- The texts of the tokens join the table one by one, and each token gets the
symbol of its text. -/
inductive Labelled : Interner → List TokenKind → Interner → Prop
  | nil (names : Interner) : Labelled names [] names
  | plain {names names' : Interner} {kind : TokenKind} {kinds : List TokenKind} :
      kind.symbol? = none → Labelled names kinds names' → Labelled names (kind :: kinds) names'
  | text {names names' : Interner} {kind : TokenKind} {kinds : List TokenKind} (text : String) :
      kind.symbol? = some (names.intern text).1 →
        Labelled (names.intern text).2 kinds names' → Labelled names (kind :: kinds) names'

namespace Labelled

variable {names names' names'' : Interner} {kind : TokenKind} {kinds kinds' : List TokenKind}

theorem append (h : Labelled names kinds names') (h' : Labelled names' kinds' names'') :
    Labelled names (kinds ++ kinds') names'' := by
  induction h with
  | nil _ => exact h'
  | plain hkind _ ih => exact .plain hkind (ih h')
  | text text hkind _ ih => exact .text text hkind (ih h')

theorem resolve? {sym : Symbol} {text : String} (h : Labelled names kinds names')
    (hsym : names.resolve? sym = some text) : names'.resolve? sym = some text := by
  induction h with
  | nil _ => exact hsym
  | plain _ _ ih => exact ih hsym
  | text other _ _ ih => exact ih (Interner.resolve?_intern_old hsym)

theorem text? {text : String} (hkind : kind.symbol? = some (names.intern text).1)
    (h : Labelled (names.intern text).2 kinds names') : kind.text? names' = some text := by
  have htext := h.resolve? Interner.resolve?_intern
  rw [TokenKind.text?, hkind, Option.map_some, Interner.resolve, htext, Option.getD_some]

/-- Kinds and texts decide the symbols and the table. -/
theorem unique (h : Labelled names kinds names') (h' : Labelled names kinds' names'')
    (hsame : kinds.map (TokenKind.spelled names') = kinds'.map (TokenKind.spelled names'')) :
    kinds = kinds' ∧ names' = names'' := by
  induction h generalizing kinds' with
  | nil names =>
    cases h' with
    | nil _ => exact ⟨rfl, rfl⟩
    | plain _ _ | text _ _ _ => cases hsame
  | plain hkind _ ih =>
    cases h' with
    | nil _ => cases hsame
    | plain hkind' h' =>
      obtain ⟨hfirst, hrest⟩ := List.cons.inj hsame
      obtain ⟨hbare, -⟩ := Prod.mk.inj hfirst
      obtain ⟨rfl, hnames⟩ := ih h' hrest
      rw [TokenKind.eq_of_bare hbare (hkind.trans hkind'.symm)]
      exact ⟨rfl, hnames⟩
    | text text hkind' h' =>
      obtain ⟨hfirst, -⟩ := List.cons.inj hsame
      obtain ⟨-, htext⟩ := Prod.mk.inj hfirst
      rw [h'.text? hkind', TokenKind.text?, hkind] at htext
      cases htext
  | text text hkind hlabelled ih =>
    cases h' with
    | nil _ => cases hsame
    | plain hkind' _ =>
      obtain ⟨hfirst, -⟩ := List.cons.inj hsame
      obtain ⟨-, htext⟩ := Prod.mk.inj hfirst
      rw [hlabelled.text? hkind, TokenKind.text?, hkind'] at htext
      cases htext
    | text text' hkind' h' =>
      obtain ⟨hfirst, hrest⟩ := List.cons.inj hsame
      obtain ⟨hbare, htext⟩ := Prod.mk.inj hfirst
      rw [hlabelled.text? hkind, h'.text? hkind'] at htext
      cases htext
      obtain ⟨rfl, hnames⟩ := ih h' hrest
      rw [TokenKind.eq_of_bare hbare (hkind.trans hkind'.symm)]
      exact ⟨rfl, hnames⟩

end Labelled

/-- A piece makes no token, a token without a text, or one whose text joins the
table. -/
theorem Piece.labelled_token {p : Piece} {names names' : Interner} {kind? : Option TokenKind}
    (h : p.token names = (kind?, names')) : Labelled names kind?.toList names' := by
  cases kind? with
  | some kind =>
    cases Piece.gives h with
    | ident _ | str _ _ _ => exact .text _ rfl (.nil _)
    | float _ | int _ | keyword _ _ | char _ _ _ | punct _ => exact .plain rfl (.nil _)
  | none =>
    have hsame : names' = names := by
      cases p <;> grind [token]
    rw [hsame]
    exact .nil _

/-- Pieces bring their texts into the table one by one. -/
theorem LexState.Passes.labelled {s s' : LexState} {cs : List Cut} (h : Passes s cs s') :
    Labelled s.names ((cs.filterMap Cut.token?).map (·.kind)) s'.names := by
  induction h with
  | done _ => exact .nil _
  | @cut s s' p cs _ _ ih =>
    have hnames : (s.pass p).names = (p.token s.names).2 := rfl
    rcases token_cases s p with ⟨names, htoken, hnone⟩ | ⟨kind, names, htoken, hsome⟩
    · rw [hnames, htoken] at ih
      rw [List.filterMap_cons_none hnone]
      exact (Piece.labelled_token htoken).append ih
    · rw [hnames, htoken] at ih
      rw [List.filterMap_cons_some hsome]
      exact (Piece.labelled_token htoken).append ih

theorem lex_labelled {src : String} {limits : Limits} {lexed : Lexed}
    (h : lex src limits = .ok lexed) :
    Labelled .empty (lexed.tokens.toList.map (·.kind)) lexed.names := by
  obtain ⟨cs, s, hpasses, -, htokens, -, hnames⟩ := lex_passes h
  rw [htokens, hnames, List.map_append]
  exact hpasses.labelled.append (.plain rfl (.nil _))

/-! ### Token limits -/

/-- What a smaller limit makes of a stream: all of it, or its first faults and
the one that ends it. -/
def LexState.Gated (maxTokens : Nat) (s : LexState) (r : Except Diagnostics LexState) : Prop :=
  s.tokens.size ≤ maxTokens ∧ r = .ok s ∨
    maxTokens < s.tokens.size ∧ ∃ (seen later : Diagnostics) (span : Span),
      s.diagnostics = seen ++ later ∧
        r = .error (seen.push ((Exceeded.tokens maxTokens).diagnostic span))

namespace LexState

variable {maxTokens maxTokens' fuel : Nat} {p : Piece} {s s' : LexState} {t : Token}

/-- A state that a run may come to later. -/
structure Later (s s' : LexState) : Prop where
  tokens : s.tokens.size ≤ s'.tokens.size
  diagnostics : ∃ later, s'.diagnostics = s.diagnostics ++ later

theorem Later.trans {s'' : LexState} (h : s.Later s') (h' : s'.Later s'') : s.Later s'' := by
  obtain ⟨first, hfirst⟩ := h.diagnostics
  obtain ⟨second, hsecond⟩ := h'.diagnostics
  refine ⟨Nat.le_trans h.tokens h'.tokens, first ++ second, ?_⟩
  rw [hsecond, hfirst, Array.append_assoc]

theorem later_push (h : s.push maxTokens t = .ok s') : s.Later s' := by
  obtain ⟨-, rfl⟩ := push_ok_iff.mp h
  exact ⟨by simp, #[], by simp⟩

theorem later_read (h : read maxTokens p s = .ok s') : s.Later s' := by
  rw [pass_of_read h]
  exact ⟨by simp [pass], _, rfl⟩

theorem later_run (h : run maxTokens fuel s = .ok s') : s.Later s' :=
  run_induction (P := fun _ s => s.Later s') (fun _ _ _ hpush => later_push hpush)
    (fun _ _ _ _ _ hread ih => (later_read hread).trans ih) h

/-- Under a smaller limit the token is kept as well, or the limit is reported. -/
theorem gated_push (h : s.push maxTokens' t = .ok s') (hroom : s.tokens.size ≤ maxTokens) :
    Gated maxTokens s' (s.push maxTokens t) := by
  have hsize := congrArg Array.size (tokens_push h)
  rw [Array.size_push] at hsize
  by_cases hfull : maxTokens ≤ s.tokens.size
  · refine .inr ⟨by omega, s.diagnostics, ?_⟩
    obtain ⟨later, hlater⟩ := (later_push h).diagnostics
    refine ⟨later, t.span, hlater, ?_⟩
    rw [push, if_pos hfull]
  · refine .inl ⟨by omega, ?_⟩
    rw [push_ok_iff] at h ⊢
    exact ⟨Nat.not_le.mp hfull, h.2⟩

theorem gated_read (h : read maxTokens' p s = .ok s') (hroom : s.tokens.size ≤ maxTokens) :
    Gated maxTokens s' (read maxTokens p s) := by
  unfold read at h ⊢
  dsimp only at h ⊢
  split at h
  · exact gated_push h hroom
  · next htoken =>
    cases h
    exact .inl ⟨hroom, rfl⟩

/-- How a stream fares under another limit is decided by its length. -/
theorem gated_run (h : run maxTokens' fuel s = .ok s') (hroom : s.tokens.size ≤ maxTokens) :
    Gated maxTokens s' (run maxTokens fuel s) := by
  induction fuel generalizing s with
  | zero => exact gated_push h hroom
  | succ fuel ih =>
    unfold run at h ⊢
    split at h
    · exact gated_push h hroom
    · next p hp =>
      cases hread : read maxTokens' p s with
      | error ds => simp [hread, bind, Except.bind] at h
      | ok s1 =>
        simp only [hread, bind, Except.bind] at h
        rcases gated_read hread hroom with ⟨hfits, hok⟩ | ⟨hover, seen, later, span, hseen, herror⟩
        · simp only [hok, bind, Except.bind]
          exact ih h hfits
        · have hlater := later_run h
          obtain ⟨last, hlast⟩ := hlater.diagnostics
          simp only [herror, bind, Except.bind]
          refine .inr ⟨Nat.lt_of_lt_of_le hover hlater.tokens, seen, later ++ last, span, ?_, rfl⟩
          rw [hlast, hseen, Array.append_assoc]

end LexState

section

variable {src : String} {limits limits' : Limits} {lexed : Lexed}

/-- A stream that was read under some limits is read under all that allow for
its tokens. -/
theorem lex_of_fits (h : lex src limits = .ok lexed)
    (hfits : lexed.tokens.size ≤ limits'.clamped.maxTokens) : lex src limits' = .ok lexed := by
  obtain ⟨s, hrun, rfl⟩ := lex_ok_iff.mp h
  rcases LexState.gated_run hrun (Nat.zero_le limits'.clamped.maxTokens) with
    ⟨-, hok⟩ | ⟨hover, -⟩
  · exact lex_ok_iff.mpr ⟨s, hok, rfl⟩
  · exact absurd hfits (Nat.not_le.mpr hover)

/-- A source with too many tokens is reported up to the token that is too much. -/
def Lexed.Overrun (lexed : Lexed) (maxTokens : Nat) (ds : Diagnostics) : Prop :=
  ∃ (seen later : Diagnostics) (span : Span), lexed.diagnostics = seen ++ later ∧
    ds = seen.push ((Exceeded.tokens maxTokens).diagnostic span)

theorem lex_of_overrun (h : lex src limits = .ok lexed)
    (hover : limits'.clamped.maxTokens < lexed.tokens.size) :
    ∃ ds, lex src limits' = .error ds ∧ lexed.Overrun limits'.clamped.maxTokens ds := by
  obtain ⟨s, hrun, rfl⟩ := lex_ok_iff.mp h
  rcases LexState.gated_run hrun (Nat.zero_le limits'.clamped.maxTokens) with
    ⟨hfits, -⟩ | ⟨-, seen, later, span, hseen, herror⟩
  · exact absurd hfits (Nat.not_le.mpr hover)
  · refine ⟨_, ?_, seen, later, span, hseen, rfl⟩
    simp [lex, herror, bind, Except.bind]

end

/-! ### Streams -/

def Diagnostic.said (d : Diagnostic) : DiagnosticKind × String :=
  (d.kind, d.message)

/-- Two lists of diagnostics that say the same, one by one. -/
def SameReports (ds ds' : Diagnostics) : Prop :=
  ds.map Diagnostic.said = ds'.map Diagnostic.said

def Lexed.spelled (lexed : Lexed) : List (TokenKind × Option String) :=
  lexed.tokens.toList.map fun t => t.kind.spelled lexed.names

/-- Two streams that agree in the kinds and texts of their tokens and in what
was reported about them. -/
structure Lexed.SameStream (lexed lexed' : Lexed) : Prop where
  tokens : lexed.spelled = lexed'.spelled
  diagnostics : SameReports lexed.diagnostics lexed'.diagnostics

/-- Sources whose streams say the same have the same tokens, symbols included,
and the same names. -/
theorem Lexed.SameStream.labels {src src' : String} {limits limits' : Limits} {lexed lexed' : Lexed}
    (h : lex src limits = .ok lexed) (h' : lex src' limits' = .ok lexed')
    (hsame : lexed.SameStream lexed') :
    lexed.tokens.toList.map (·.kind) = lexed'.tokens.toList.map (·.kind) ∧
      lexed.names = lexed'.names := by
  apply (lex_labelled h).unique (lex_labelled h')
  rw [List.map_map, List.map_map]
  exact hsame.tokens

theorem Lexed.SameStream.size {lexed lexed' : Lexed} (h : lexed.SameStream lexed') :
    lexed.tokens.size = lexed'.tokens.size := by
  simpa [spelled] using congrArg List.length h.tokens

end StagedCompiler
