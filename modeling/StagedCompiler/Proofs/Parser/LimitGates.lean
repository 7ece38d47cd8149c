import StagedCompiler.Proofs.Parser.ExprHeight
import StagedCompiler.Proofs.Parser.PairedReaders
import StagedCompiler.Proofs.Parser.Totality

/-!
Limits are gates: they decide whether there is a result, never which one. A
stage that passes under some limits passes under larger ones with the same
tokens, nodes, names, diagnostics and text, and what it gives keeps to the
limits it passed.
-/

namespace StagedCompiler

/-- Limits that allow at least as much in each respect. -/
structure Limits.Le (l l' : Limits) : Prop where
  maxTokens : l.maxTokens ≤ l'.maxTokens
  maxNodes : l.maxNodes ≤ l'.maxNodes
  maxChildren : l.maxChildren ≤ l'.maxChildren
  maxDepth : l.maxDepth ≤ l'.maxDepth

instance : LE Limits := ⟨Limits.Le⟩

def Options.withLimits (opts : Options) (limits : Limits) : Options :=
  { opts with limits }

/-- What all stages do at their end: in strict mode, diagnostics take the place
of the result. -/
theorem accepted_iff {α : Type} {strict : Bool} {ds : Diagnostics} {a b : α} :
    (if strict && !ds.isEmpty then Except.error ds else .ok a) = .ok b ↔
      a = b ∧ (strict → ds = #[]) := by
  cases strict with
  | false => simp
  | true =>
    cases hclean : ds.isEmpty with
    | true => simp [Array.isEmpty_iff.mp hclean]
    | false =>
      have hsome : ds ≠ #[] := by
        rintro rfl
        cases hclean
      simp [hsome]

/-! ### Tokens -/

namespace LexState

variable {maxTokens maxTokens' fuel : Nat} {p : Piece} {s s' : LexState} {t : Token}

theorem push_mono (hle : maxTokens ≤ maxTokens') (h : s.push maxTokens t = .ok s') :
    s.push maxTokens' t = .ok s' := by
  rw [push_ok_iff] at h ⊢
  exact ⟨Nat.lt_of_lt_of_le h.1 hle, h.2⟩

theorem read_mono (hle : maxTokens ≤ maxTokens') (h : read maxTokens p s = .ok s') :
    read maxTokens' p s = .ok s' := by
  unfold read at h ⊢
  dsimp only at h ⊢
  split at h
  · exact push_mono hle h
  · exact h

/-- A run within a limit is the same under a larger one. -/
theorem run_mono (hle : maxTokens ≤ maxTokens') (h : run maxTokens fuel s = .ok s') :
    run maxTokens' fuel s = .ok s' := by
  induction fuel generalizing s with
  | zero => exact push_mono hle h
  | succ fuel ih =>
    unfold run at h ⊢
    split at h
    · exact push_mono hle h
    · next p hp =>
      cases hread : read maxTokens p s with
      | error ds => simp [hread, bind, Except.bind] at h
      | ok s1 =>
        simp only [hread, bind, Except.bind] at h
        simp only [read_mono hle hread, bind, Except.bind]
        exact ih h

/-- The last token, the closing one, passed the gate. -/
theorem size_run_le (h : run maxTokens fuel s = .ok s') : s'.tokens.size ≤ maxTokens := by
  refine run_induction (P := fun _ _ => _) (fun _ s _ hpush => ?_) (fun _ _ _ _ _ _ ih => ih) h
  obtain ⟨hroom, rfl⟩ := push_ok_iff.mp hpush
  rw [Array.size_push]
  exact hroom

end LexState

section

variable {src : String} {limits limits' : Limits} {lexed : Lexed} {opts : Options}

theorem Limits.clamped_mono (hle : limits ≤ limits') : limits.clamped ≤ limits'.clamped := by
  have htokens := hle.maxTokens
  have hnodes := hle.maxNodes
  constructor
  · simp only [clamped]
    omega
  · simp only [clamped]
    omega
  · exact hle.maxChildren
  · exact hle.maxDepth

theorem lex_mono (hle : limits ≤ limits') (h : lex src limits = .ok lexed) :
    lex src limits' = .ok lexed := by
  rw [lex_ok_iff] at h ⊢
  obtain ⟨s, hrun, hlexed⟩ := h
  exact ⟨s, LexState.run_mono (Limits.clamped_mono hle).maxTokens hrun, hlexed⟩

theorem size_lex_le (h : lex src limits = .ok lexed) :
    lexed.tokens.size ≤ limits.clamped.maxTokens := by
  obtain ⟨s, hrun, rfl⟩ := lex_ok_iff.mp h
  exact LexState.size_run_le hrun

theorem tokenize_ok_iff : tokenize src opts = .ok lexed ↔
    lex src opts.limits = .ok lexed ∧ (opts.isStrict → lexed.diagnostics = #[]) := by
  unfold tokenize
  cases lex src opts.limits with
  | error ds => simp [bind, Except.bind]
  | ok lexed' =>
    simp only [bind, Except.bind, Lexed.accept, accepted_iff, Except.ok.injEq]
    constructor <;> rintro ⟨rfl, h⟩ <;> exact ⟨rfl, h⟩

end

/-! ### Units -/

section

variable {src : String} {limits : Limits} {lexed : Lexed} {opts : Options} {parsed : Parsed}

/-- Two units with the same nodes, names, root and diagnostics. Of the limits
that their arenas keep, nothing is said. -/
structure Parsed.Same (parsed parsed' : Parsed) : Prop where
  nodes : parsed.ast.arena.nodes = parsed'.ast.arena.nodes
  names : parsed.ast.names = parsed'.ast.names
  root : parsed.ast.root = parsed'.ast.root
  diagnostics : parsed.diagnostics = parsed'.diagnostics

theorem Parsed.Same.tree {parsed parsed' : Parsed} (h : parsed.Same parsed') :
    parsed.ast.tree = parsed'.ast.tree := by
  unfold Ast.tree Arena.trees
  rw [h.nodes, h.names, h.root]

namespace Leeway

/-! Without leeway in places, what corresponds is equal. -/

theorem eq_of_fieldPair {f f' : FieldInit Symbol NodeId} (h : ofLimits.FieldPair f f') :
    f = f' := by
  obtain ⟨name, value, span⟩ := f
  obtain ⟨name', value', span'⟩ := f'
  obtain ⟨hname, hvalue, hspan⟩ := h
  dsimp only [ofLimits] at hname hvalue hspan
  rw [hname, hvalue, hspan]

theorem eq_of_kindPair {kind kind' : NodeKind Symbol NodeId} (h : ofLimits.KindPair kind kind') :
    kind = kind' := by
  cases h with
  | same _ => rfl
  | structLit name hfields =>
    have hsame := hfields.imp fun _ _ => eq_of_fieldPair
    rw [List.forall₂_eq_eq_eq] at hsame
    rw [hsame]

theorem eq_of_nodePair {n n' : Node} (h : ofLimits.NodePair n n') : n = n' := by
  obtain ⟨kind, span⟩ := n
  obtain ⟨kind', span'⟩ := n'
  have hkind := eq_of_kindPair h.kind
  have hspan := h.span
  dsimp only [ofLimits] at hkind hspan
  rw [hkind, hspan]

theorem eq_of_diagnosticPair {d d' : Diagnostic} (h : ofLimits.DiagnosticPair d d') : d = d' := by
  obtain ⟨kind, message, span⟩ := d
  obtain ⟨kind', message', span'⟩ := d'
  obtain ⟨hkind, hmessage, hspan⟩ := h
  dsimp only [ofLimits] at hkind hmessage hspan
  rw [hkind, hmessage, hspan]

theorem UnitPair.same {parsed parsed' : Parsed} (h : ofLimits.UnitPair parsed parsed') :
    parsed.Same parsed' := by
  have hnodes := h.arena.nodes.imp fun _ _ => eq_of_nodePair
  have hds := List.Forall₂.imp (fun _ _ => eq_of_diagnosticPair) h.diagnostics
  rw [List.forall₂_eq_eq_eq] at hnodes hds
  exact ⟨Array.toList_inj.mp hnodes, h.names, h.root, Array.toList_inj.mp hds⟩

theorem token_refl (t : Token) : ofLimits.TokenPair t t :=
  ⟨rfl, rfl⟩

theorem diagnostic_refl (d : Diagnostic) : ofLimits.DiagnosticPair d d :=
  ⟨rfl, rfl, rfl⟩

theorem limit_of_le {n n' : Nat} (h : n ≤ n') : ofLimits.Limit n n' :=
  ⟨h, False.elim⟩

end Leeway

/-- The same stream under larger limits gives the same unit. -/
theorem readProgram_mono (hle : opts.limits ≤ limits) (h : readProgram lexed opts = .ok parsed) :
    ∃ parsed', readProgram lexed (opts.withLimits limits) = .ok parsed' ∧ parsed.Same parsed' := by
  have hc : Leeway.ofLimits.SettingsPair (.ofStream lexed opts)
      (.ofStream lexed (opts.withLimits limits)) :=
    ⟨rfl, Leeway.limit_of_le hle.maxDepth, rfl, rfl⟩
  have harena : Leeway.ofLimits.ArenaPair (.withLimits opts.limits) (.withLimits limits) :=
    ⟨.nil, Leeway.limit_of_le (Limits.clamped_mono hle).maxNodes,
      Leeway.limit_of_le hle.maxChildren⟩
  have hs : Leeway.ofLimits.StatePair (.ofStream lexed opts)
      (.ofStream lexed (opts.withLimits limits)) :=
    ⟨List.forall₂_same.mpr fun t _ => Leeway.token_refl t, rfl, harena, rfl,
      List.forall₂_same.mpr fun d _ => Leeway.diagnostic_refl d⟩
  rcases Leeway.readProgram_pair hc hs with
    ⟨parsed1, parsed', hread, hread', hpair⟩ | ⟨ds, hread, -⟩
  · cases h.symm.trans hread
    exact ⟨parsed', hread', hpair.same⟩
  · cases h.symm.trans hread

theorem parse_ok_iff : parse lexed opts = .ok parsed ↔
    readProgram lexed opts = .ok parsed ∧ (opts.isStrict → parsed.diagnostics = #[]) := by
  unfold parse
  cases readProgram lexed opts with
  | error ds => simp [bind, Except.bind]
  | ok parsed' =>
    simp only [bind, Except.bind, Parsed.accept, accepted_iff, Except.ok.injEq]
    constructor <;> rintro ⟨rfl, h⟩ <;> exact ⟨rfl, h⟩

theorem parseSource_ok_iff : parseSource src opts = .ok parsed ↔
    ∃ lexed, tokenize src opts = .ok lexed ∧ parse lexed opts = .ok parsed := by
  unfold parseSource
  cases tokenize src opts with
  | error ds => simp [bind, Except.bind]
  | ok lexed => simp [bind, Except.bind]

theorem tokenize_mono (hle : opts.limits ≤ limits) (h : tokenize src opts = .ok lexed) :
    tokenize src (opts.withLimits limits) = .ok lexed := by
  rw [tokenize_ok_iff] at h ⊢
  exact ⟨lex_mono hle h.1, h.2⟩

theorem parse_mono (hle : opts.limits ≤ limits) (h : parse lexed opts = .ok parsed) :
    ∃ parsed', parse lexed (opts.withLimits limits) = .ok parsed' ∧ parsed.Same parsed' := by
  obtain ⟨hread, haccept⟩ := parse_ok_iff.mp h
  obtain ⟨parsed', hread', hsame⟩ := readProgram_mono hle hread
  refine ⟨parsed', parse_ok_iff.mpr ⟨hread', ?_⟩, hsame⟩
  rw [← hsame.diagnostics]
  exact haccept

theorem parseSource_mono (hle : opts.limits ≤ limits) (h : parseSource src opts = .ok parsed) :
    ∃ parsed', parseSource src (opts.withLimits limits) = .ok parsed' ∧ parsed.Same parsed' := by
  obtain ⟨lexed, hlexed, hparse⟩ := parseSource_ok_iff.mp h
  obtain ⟨parsed', hparse', hsame⟩ := parse_mono hle hparse
  exact ⟨parsed', parseSource_ok_iff.mpr ⟨lexed, tokenize_mono hle hlexed, hparse'⟩, hsame⟩

theorem compileSource_mono {result : Compilation} (hle : opts.limits ≤ limits)
    (h : compileSource src opts = .ok result) :
    compileSource src (opts.withLimits limits) = .ok result := by
  rw [compileSource_ok_iff] at h ⊢
  obtain ⟨parsed, g, hparsed, hg, hresult⟩ := h
  obtain ⟨parsed', hparsed', hsame⟩ := parseSource_mono hle hparsed
  refine ⟨parsed', g, hparsed', ?_, ?_⟩
  · unfold Target.generate at hg ⊢
    rw [← hsame.tree]
    exact hg
  · rw [hresult, hsame.diagnostics]

end

/-- Larger limits never change a result, and every result keeps to the limits
under which it was made. -/
theorem limits_are_gates (src : String) (opts : Options) :
    -- What passes a limit passes each larger one, and comes out the same.
    (∀ limits : Limits, opts.limits ≤ limits →
      (∀ lexed, tokenize src opts = .ok lexed →
        tokenize src (opts.withLimits limits) = .ok lexed) ∧
      (∀ parsed, parseSource src opts = .ok parsed →
        ∃ parsed', parseSource src (opts.withLimits limits) = .ok parsed' ∧
          parsed.Same parsed') ∧
      ∀ result, compileSource src opts = .ok result →
        compileSource src (opts.withLimits limits) = .ok result) ∧
    -- Each stage has passed those before it, and what they gave is bounded.
    (∀ lexed, tokenize src opts = .ok lexed →
      lexed.tokens.size ≤ min opts.limits.maxTokens Limits.maxIds) ∧
    (∀ parsed, parseSource src opts = .ok parsed →
      (∃ lexed, tokenize src opts = .ok lexed) ∧
        parsed.ast.arena.size ≤ min opts.limits.maxNodes Limits.maxIds ∧
        ∀ n ∈ parsed.ast.arena.nodes, n.kind.children.length ≤ opts.limits.maxChildren) ∧
    ∀ result, compileSource src opts = .ok result →
      ∃ parsed, parseSource src opts = .ok parsed := by
  refine ⟨?_, ?_, ?_, ?_⟩
  · intro limits hle
    exact ⟨fun _ => tokenize_mono hle, fun _ => parseSource_mono hle,
      fun _ => compileSource_mono hle⟩
  · intro lexed hlexed
    exact size_lex_le (tokenize_ok_iff.mp hlexed).1
  · intro parsed hparsed
    obtain ⟨lexed, hlexed, hparse⟩ := parseSource_ok_iff.mp hparsed
    obtain ⟨hwithin, hnodes, hchildren⟩ := readProgram_within (parse_ok_iff.mp hparse).1
    refine ⟨⟨lexed, hlexed⟩, ?_, ?_⟩
    · rw [← show opts.limits.clamped.maxNodes = min opts.limits.maxNodes Limits.maxIds from rfl,
        ← hnodes]
      exact hwithin.size
    · rw [← hchildren]
      exact hwithin.children
  · intro result hresult
    obtain ⟨parsed, g, hparsed, -, -⟩ := (compileSource_ok_iff opts).mp hresult
    exact ⟨parsed, hparsed⟩

/-- A function that fills its limits to the brim compiles under the usual ones
to the same text. -/
theorem limits_are_gates_brim :
    ∃ (opts : Options) (result : Compilation), opts.limits = ⟨24, 14, 3, 5⟩ ∧
      compileSource "fn f(x: i32) -> i32 \x7b return (x + 1) * g(x); \x7d" opts = .ok result ∧
      compileSource "fn f(x: i32) -> i32 \x7b return (x + 1) * g(x); \x7d"
        (opts.withLimits {}) = .ok result := by
  have hok : (compileSource "fn f(x: i32) -> i32 \x7b return (x + 1) * g(x); \x7d"
      { mode := .strict, limits := ⟨24, 14, 3, 5⟩ }).isOk := by decide +kernel
  obtain ⟨result, hresult⟩ := exists_of_isOk hok
  have hle : (⟨24, 14, 3, 5⟩ : Limits) ≤ {} := ⟨by decide, by decide, by decide, by decide⟩
  refine ⟨{ mode := .strict, limits := ⟨24, 14, 3, 5⟩ }, result, rfl, hresult, ?_⟩
  exact ((limits_are_gates _ _).1 {} hle).2.2 result hresult

end StagedCompiler
