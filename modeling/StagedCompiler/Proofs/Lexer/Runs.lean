import StagedCompiler.Token.Lexer

/-!
Runs of the lexer over bytes that are known piece by piece. `Reads` says which
tokens a run makes of some bytes and which table of names it ends with, if
there is room for the tokens and no piece is at fault.
-/

namespace StagedCompiler

namespace LexState

/-- Tokens of the given kinds are all that is read from the bytes, nothing is
reported, and `names'` is the table of names in the end. -/
def Reads (names : Interner) (bytes : List UInt8) (kinds : List TokenKind) (names' : Interner) :
    Prop :=
  ∀ (maxTokens fuel : Nat) (s : LexState), s.rest = bytes → s.names = names →
    bytes.length ≤ fuel → s.tokens.size + kinds.length < maxTokens →
      ∃ s', run maxTokens fuel s = .ok s' ∧
        s'.tokens.toList.map Token.kind = s.tokens.toList.map Token.kind ++ kinds ++ [.eof] ∧
        s'.names = names' ∧ s'.diagnostics = s.diagnostics

variable {names names1 names' : Interner} {bytes : List UInt8} {p : Piece} {kind : TokenKind}
  {kinds : List TokenKind}

theorem push_of_lt {s : LexState} {maxTokens : Nat} (h : s.tokens.size < maxTokens) (t : Token) :
    s.push maxTokens t = .ok { s with tokens := s.tokens.push t } :=
  if_neg (Nat.not_le.mpr h)

theorem reads_end (names : Interner) : Reads names [] [] names := by
  intro maxTokens fuel s hbytes hnames _ hroom
  have hrun : run maxTokens fuel s = s.push maxTokens ⟨.eof, Span.between s.here s.here⟩ := by
    cases fuel with
    | zero => rfl
    | succ fuel => simp [run, hbytes, Piece.atFront?]
  rw [hrun, push_of_lt hroom]
  exact ⟨_, rfl, by simp, hnames, rfl⟩

theorem read_ok {s : LexState} {maxTokens : Nat} {kind? : Option TokenKind}
    (hfault : p.fault? = none) (htoken : p.token s.names = (kind?, names1))
    (hroom : s.tokens.size + kind?.toList.length ≤ maxTokens) :
    ∃ s', read maxTokens p s = .ok s' ∧ s'.rest = s.rest.drop p.length ∧ s'.names = names1 ∧
      s'.tokens.toList.map Token.kind = s.tokens.toList.map Token.kind ++ kind?.toList ∧
      s'.diagnostics = s.diagnostics := by
  have hreport (span : Span) : report s.diagnostics p span = s.diagnostics := by
    rw [report, hfault]
  unfold read
  dsimp only
  rw [htoken]
  cases kind? with
  | none => exact ⟨_, rfl, rfl, rfl, by simp, hreport _⟩
  | some kind =>
    refine ⟨_, push_of_lt ?_ _, rfl, rfl, by simp, hreport _⟩
    exact hroom

/-- What is read from a piece on: its token, if it makes one, and the rest. -/
theorem reads_piece {kind? : Option TokenKind} (hp : Piece.atFront? bytes = some p)
    (hlength : 0 < p.length) (hfault : p.fault? = none)
    (htoken : p.token names = (kind?, names1))
    (h : Reads names1 (bytes.drop p.length) kinds names') :
    Reads names bytes (kind?.toList ++ kinds) names' := by
  intro maxTokens fuel s hbytes hnames hfuel hroom
  subst hbytes hnames
  have hne : s.rest ≠ [] := by
    intro hnil
    simp [hnil, Piece.atFront?] at hp
  have hpos : 0 < s.rest.length := List.length_pos_iff.mpr hne
  obtain ⟨fuel, rfl⟩ : ∃ n, fuel = n + 1 := ⟨fuel - 1, by omega⟩
  rw [List.length_append] at hroom
  have hroom1 : s.tokens.size + kind?.toList.length ≤ maxTokens := by omega
  obtain ⟨s1, hread, hrest, hnames, htokens, hquiet⟩ := read_ok hfault htoken hroom1
  have hsize : s1.tokens.size = s.tokens.size + kind?.toList.length := by
    simpa using congrArg List.length htokens
  have hfuel1 : (s.rest.drop p.length).length ≤ fuel := by
    rw [List.length_drop]
    omega
  obtain ⟨s2, hrun, hkinds, hnames', hquiet'⟩ :=
    h maxTokens fuel s1 hrest hnames hfuel1 (by omega)
  refine ⟨s2, ?_, ?_, hnames', hquiet'.trans hquiet⟩
  · simp [run, hp, hread, bind, Except.bind, hrun]
  · simp [hkinds, htokens]

theorem reads_token (hp : Piece.atFront? bytes = some p) (hlength : 0 < p.length)
    (hfault : p.fault? = none) (htoken : p.token names = (some kind, names1))
    (h : Reads names1 (bytes.drop p.length) kinds names') :
    Reads names bytes (kind :: kinds) names' :=
  reads_piece hp hlength hfault htoken h

/-- Blanks and comments make no token. -/
theorem reads_blank (hp : Piece.atFront? bytes = some p) (hlength : 0 < p.length)
    (hfault : p.fault? = none) (htoken : p.token names = (none, names1))
    (h : Reads names1 (bytes.drop p.length) kinds names') : Reads names bytes kinds names' :=
  reads_piece hp hlength hfault htoken h

end LexState

theorem lex_of_reads {src : String} {limits : Limits} {kinds : List TokenKind} {names : Interner}
    (h : LexState.Reads .empty (Text.bytes src) kinds names)
    (hroom : kinds.length < limits.clamped.maxTokens) :
    ∃ tokens : Array Token, lex src limits = .ok ⟨tokens, names, #[]⟩ ∧
      tokens.toList.map Token.kind = kinds ++ [TokenKind.eof] := by
  obtain ⟨s, hrun, hkinds, hnames, hquiet⟩ := h limits.clamped.maxTokens (Text.bytes src).length
    { rest := Text.bytes src } rfl rfl (Nat.le_refl _) (by simpa using hroom)
  refine ⟨s.tokens, ?_, by simpa using hkinds⟩
  simp [lex, hrun, hnames, hquiet, bind, Except.bind, pure, Except.pure]

end StagedCompiler
