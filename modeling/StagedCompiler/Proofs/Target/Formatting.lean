import StagedCompiler.Proofs.Lexer.SameStreams
import StagedCompiler.Proofs.Target.Composition
import StagedCompiler.Proofs.Target.Offences

/-!
Formatting is free. Blanks, comments and line breaks move tokens about; the
nodes, the names and the text of a program do not depend on where its tokens
stand, and neither does what is reported about it.
-/

namespace StagedCompiler

/-! ### Trees of two arenas -/

/-- The kind without places, which stand only with the fields of struct
literals. -/
def NodeKind.bare {Name Child : Type} : NodeKind Name Child → NodeKind Name Child
  | .structLit name fields => .structLit name (fields.map fun field => { field with span := {} })
  | kind => kind

namespace Tree

theorem unplacedKind_map {Name Child : Type} (f : Name → String) (g : Child → Tree)
    (kind : NodeKind Name Child) :
    unplacedKind (kind.map f g) = kind.bare.map f fun child => (g child).unplaced := by
  cases kind <;> simp [NodeKind.map, NodeKind.bare, unplacedKind, Function.comp_def]

theorem children_unplacedKind (kind : NodeKind String Tree) :
    (unplacedKind kind).children = kind.children.map unplaced := by
  cases kind <;> simp [unplacedKind, NodeKind.children, Function.comp_def, Option.toList_map]

theorem items_unplaced (t : Tree) : t.unplaced.items = t.items.map unplaced := by
  obtain ⟨kind, span⟩ := t
  cases kind <;> simp [unplaced, unplacedKind, items]

end Tree

namespace Arena

theorem getD_unplaced {trees trees' : Array Tree}
    (h : trees.map Tree.unplaced = trees'.map Tree.unplaced) (id : NodeId) :
    (trees.getD id .empty).unplaced = (trees'.getD id .empty).unplaced := by
  have hget := congrArg (fun ts => (ts[id]?).getD Tree.empty.unplaced) h
  simp only [Array.getElem?_map, Option.getD_map] at hget
  rw [Array.getD_eq_getD_getElem?, Array.getD_eq_getD_getElem?]
  exact hget

/-- Nodes of the same kinds give the same trees, places apart. -/
theorem trees_unplaced {a a' : Arena} (names : Interner)
    (h : a.nodes.map (·.kind.bare) = a'.nodes.map (·.kind.bare)) :
    (a.trees names).map Tree.unplaced = (a'.trees names).map Tree.unplaced := by
  have hfold (ns ns' : List Node) (hns : ns.map (·.kind.bare) = ns'.map (·.kind.bare))
      (done done' : Array Tree) (hdone : done.map Tree.unplaced = done'.map Tree.unplaced) :
      (ns.foldl (fun trees n => trees.push
        (.node (n.kind.map names.resolve fun id => trees.getD id .empty) n.span)) done).map
          Tree.unplaced =
      (ns'.foldl (fun trees n => trees.push
        (.node (n.kind.map names.resolve fun id => trees.getD id .empty) n.span)) done').map
          Tree.unplaced := by
    induction ns generalizing ns' done done' with
    | nil =>
      cases ns' with
      | nil => exact hdone
      | cons n' ns' => cases hns
    | cons n ns ih =>
      cases ns' with
      | nil => cases hns
      | cons n' ns' =>
        simp only [List.map_cons, List.cons.injEq] at hns
        apply ih ns' hns.2
        simp only [Array.map_push, hdone, Tree.unplaced, Tree.unplacedKind_map, hns.1,
          getD_unplaced hdone]
  unfold trees
  rw [← Array.foldl_toList, ← Array.foldl_toList]
  apply hfold _ _ _ _ _ rfl
  simpa using congrArg Array.toList h

end Arena

/-! ### Texts and reports -/

namespace Target

open StagedCompiler.Tree

theorem render_unplaced (t : Tree) (support : SupportForm) :
    (render t support).c = (render t.unplaced support).c := by
  have hsame := declarations_unplaced t.items
  rw [render_eq, render_eq, items_unplaced, List.map_map]
  congr 1
  exact List.map_congr_left fun item _ => itemText_unplaced hsame.fn hsame.fields item

theorem isRange_unplacedKind (kind : NodeKind String Tree) :
    (unplacedKind kind).isRange = kind.isRange := by
  cases kind <;> rfl

/-- What is said of a node does not depend on places if what is said of its
children does not. -/
theorem said_step (kind : NodeKind String Tree) (span : Span) (part : Tree → Bool → List Diagnostic)
    (h : ∀ t ∈ kind.children, ∀ asIterator,
      (part t asIterator).map Diagnostic.said = (part t.unplaced asIterator).map Diagnostic.said)
    (asIterator : Bool) :
    (offencesStep kind span (kind.children.map part) asIterator).map Diagnostic.said =
      (offencesStep (unplacedKind kind) {} ((kind.children.map unplaced).map part) asIterator).map
        Diagnostic.said := by
  have hparts : ((kind.children.map part).flatMap (· false)).map Diagnostic.said =
      (((kind.children.map unplaced).map part).flatMap (· false)).map Diagnostic.said := by
    simp only [List.flatMap_map, List.map_flatMap]
    exact List.flatMap_congr fun t ht => h t ht false
  unfold offencesStep
  rw [isRange_unplacedKind]
  split
  · rfl
  cases kind with
  | forStmt var iter body =>
    have hiter := h iter (by simp [NodeKind.children]) true
    have hbody := h body (by simp [NodeKind.children]) false
    have hrange : iter.unplaced.kind.isRange = iter.kind.isRange := by
      obtain ⟨kind, span⟩ := iter
      exact isRange_unplacedKind kind
    simp only [NodeKind.children, List.map_cons, List.map_nil, unplacedKind, List.map_append,
      hiter, hrange]
    split
    · rw [hbody]
    · rfl
  | range start stop inclusive =>
    dsimp only [unplacedKind]
    split
    · exact hparts
    · rfl
  | float v =>
    dsimp only [unplacedKind]
    split <;> rfl
  | _ => exact hparts

theorem said_fold (t : Tree) (asIterator : Bool) :
    (t.fold offencesStep asIterator).map Diagnostic.said =
      (t.unplaced.fold offencesStep asIterator).map Diagnostic.said := by
  induction t using Tree.induction generalizing asIterator with
  | step kind span ih =>
    rw [unplaced, fold_node, fold_node, children_unplacedKind]
    exact said_step kind span _ ih asIterator

theorem said_offences (t : Tree) :
    (offences t).map Diagnostic.said = (offences t.unplaced).map Diagnostic.said :=
  said_fold t false

theorem said_itemOffences (t : Tree) :
    (itemOffences t).map Diagnostic.said = (itemOffences t.unplaced).map Diagnostic.said := by
  obtain ⟨kind, span⟩ := t
  cases kind with
  | function name isPublic params ret body => exact said_offences body
  | _ => rfl

/-- Two programs that are the same but for their places have the same text and
the same offences. -/
theorem render_alike {n : Nat} {t t' : Tree} (h : t.unplaced = t'.unplaced)
    (ht : Shape.ProgramAt n t) (ht' : Shape.ProgramAt n t') (support : SupportForm) :
    (render t support).c = (render t' support).c ∧
      SameReports (render t support).diagnostics (render t' support).diagnostics := by
  constructor
  · rw [render_unplaced, h, ← render_unplaced]
  · have hitems : t.items.map unplaced = t'.items.map unplaced := by
      rw [← items_unplaced, h, items_unplaced]
    have hsaid (items : List Tree) : (items.flatMap itemOffences).map Diagnostic.said =
        ((items.map unplaced).flatMap itemOffences).map Diagnostic.said := by
      simp only [List.flatMap_map, List.map_flatMap]
      exact List.flatMap_congr fun t _ => said_itemOffences t
    unfold SameReports
    rw [← Array.toList_inj, Array.toList_map, Array.toList_map, render_diagnostics ht,
      render_diagnostics ht', hsaid t.items, hsaid t'.items, hitems]

end Target

/-! ### Two results -/

/-- Two results that correspond, or two failures that say the same. -/
inductive Agree {α : Type} (R : α → α → Prop) : Except Diagnostics α → Except Diagnostics α → Prop
  | ok {a a' : α} : R a a' → Agree R (.ok a) (.ok a')
  | error {ds ds' : Diagnostics} : SameReports ds ds' → Agree R (.error ds) (.error ds')

structure Parsed.SameProgram (parsed parsed' : Parsed) : Prop where
  kinds : parsed.ast.arena.nodes.map (·.kind.bare) = parsed'.ast.arena.nodes.map (·.kind.bare)
  names : parsed.ast.names = parsed'.ast.names
  root : parsed.ast.root = parsed'.ast.root
  diagnostics : SameReports parsed.diagnostics parsed'.diagnostics

structure Compilation.SameText (result result' : Compilation) : Prop where
  c : result.c = result'.c
  diagnostics : SameReports result.diagnostics result'.diagnostics

theorem SameReports.isEmpty {ds ds' : Diagnostics} (h : SameReports ds ds') :
    ds.isEmpty = ds'.isEmpty := by
  have hsize := congrArg Array.size h
  rw [Array.size_map, Array.size_map] at hsize
  rw [Array.isEmpty, Array.isEmpty, hsize]

theorem SameReports.append {ds ds' es es' : Diagnostics} (h : SameReports ds ds')
    (h' : SameReports es es') : SameReports (ds ++ es) (ds' ++ es') := by
  unfold SameReports at h h' ⊢
  rw [Array.map_append, Array.map_append, h, h']

namespace Agree

variable {α : Type} {R : α → α → Prop}

/-- Stages accept alike what corresponds. -/
theorem accepted (strict : Bool) {ds ds' : Diagnostics} {r r' : Except Diagnostics α}
    (hds : SameReports ds ds') (h : Agree R r r') :
    Agree R (if strict && !ds.isEmpty then .error ds else r)
      (if strict && !ds'.isEmpty then .error ds' else r') := by
  rw [hds.isEmpty]
  split
  · exact .error hds
  · exact h

end Agree

theorem Parsed.SameProgram.unplaced {parsed parsed' : Parsed} (h : parsed.SameProgram parsed') :
    parsed.ast.tree.unplaced = parsed'.ast.tree.unplaced := by
  have htrees := Arena.trees_unplaced parsed.ast.names h.kinds
  unfold Ast.tree
  rw [← h.names, ← h.root]
  exact Arena.getD_unplaced htrees _

namespace Leeway

theorem KindPair.bare {w : Leeway} {kind kind' : NodeKind Symbol NodeId}
    (h : w.KindPair kind kind') : kind.bare = kind'.bare := by
  cases h with
  | same _ => rfl
  | @structLit name fields fields' hfields =>
    have hbare : fields.map (fun field => { field with span := {} }) =
        fields'.map fun field => { field with span := {} } := by
      induction hfields with
      | nil => rfl
      | cons hfield _ ih => rw [List.map_cons, List.map_cons, hfield.name, hfield.value, ih]
    exact congrArg (NodeKind.structLit name) hbare

theorem sameReports_iff {ds ds' : Diagnostics} :
    SameReports ds ds' ↔ ofPlaces.DiagnosticsPair ds ds' := by
  have hpair (d d' : Diagnostic) : d.said = d'.said ↔ ofPlaces.DiagnosticPair d d' := by
    constructor
    · intro h
      exact ⟨congrArg Prod.fst h, congrArg Prod.snd h, trivial⟩
    · rintro ⟨hkind, hmessage, -⟩
      rw [Diagnostic.said, Diagnostic.said, hkind, hmessage]
  unfold SameReports DiagnosticsPair
  rw [← Array.toList_inj, Array.toList_map, Array.toList_map, ← List.forall₂_eq_eq_eq,
    List.forall₂_map_left_iff, List.forall₂_map_right_iff]
  simp only [hpair]

theorem UnitPair.sameProgram {parsed parsed' : Parsed} (h : ofPlaces.UnitPair parsed parsed') :
    parsed.SameProgram parsed' := by
  refine ⟨?_, h.names, h.root, sameReports_iff.mpr h.diagnostics⟩
  have hkinds := h.arena.nodes.imp fun _ _ hnode => hnode.kind.bare
  rw [← Array.toList_inj, Array.toList_map, Array.toList_map, ← List.forall₂_eq_eq_eq,
    List.forall₂_map_left_iff, List.forall₂_map_right_iff]
  exact hkinds

end Leeway

/-! ### From streams to texts -/

section

variable {src src' : String} {limits limits' : Limits} {lexed lexed' : Lexed}

/-- Streams with the same kinds and texts are read to the same program. -/
theorem readProgram_agree (h : lex src limits = .ok lexed) (h' : lex src' limits' = .ok lexed')
    (hsame : lexed.SameStream lexed') (opts : Options) :
    Agree Parsed.SameProgram (readProgram lexed opts) (readProgram lexed' opts) := by
  obtain ⟨hkinds, hnames⟩ := hsame.labels h h'
  obtain ⟨-, before, span, hbefore⟩ := lex_tokens h
  obtain ⟨-, before', span', hbefore'⟩ := lex_tokens h'
  rw [hbefore, hbefore', Array.toList_push, Array.toList_push, List.map_append, List.map_append,
    List.map_singleton, List.map_singleton, List.append_left_inj] at hkinds
  have hrest : List.Forall₂ Leeway.ofPlaces.TokenPair before.toList before'.toList := by
    rw [← List.forall₂_eq_eq_eq, List.forall₂_map_left_iff, List.forall₂_map_right_iff] at hkinds
    exact hkinds.imp fun _ _ hkind => ⟨hkind, trivial⟩
  have hc : Leeway.ofPlaces.SettingsPair (.ofStream lexed opts) (.ofStream lexed' opts) := by
    refine ⟨rfl, ⟨Nat.le_refl _, fun _ => rfl⟩, trivial, ?_⟩
    dsimp only [ParseSettings.ofStream]
    rw [hbefore, hbefore', splitEof_push, splitEof_push]
    exact hrest.length_eq
  have hs : Leeway.ofPlaces.StatePair (.ofStream lexed opts) (.ofStream lexed' opts) := by
    refine ⟨?_, rfl, ⟨.nil, ⟨Nat.le_refl _, fun _ => rfl⟩, Nat.le_refl _, fun _ => rfl⟩, hnames,
      Leeway.sameReports_iff.mp hsame.diagnostics⟩
    dsimp only [ParseState.ofStream]
    rw [hbefore, hbefore', splitEof_push, splitEof_push]
    exact hrest
  rcases Leeway.readProgram_pair hc hs with
    ⟨parsed, parsed', hread, hread', hpair⟩ | ⟨ds, hread, hds⟩
  · rw [hread, hread']
    exact .ok hpair.sameProgram
  · obtain ⟨ds', hread', hpair⟩ := hds trivial
    rw [hread, hread']
    exact .error (Leeway.sameReports_iff.mpr hpair)

/-- Streams that differ in places alone are parsed to the same program. -/
theorem parse_agree (h : lex src limits = .ok lexed) (h' : lex src' limits' = .ok lexed')
    (hsame : lexed.SameStream lexed') (opts : Options) :
    Agree Parsed.SameProgram (parse lexed opts) (parse lexed' opts) := by
  have hread := readProgram_agree h h' hsame opts
  unfold parse
  generalize readProgram lexed opts = r at hread ⊢
  generalize readProgram lexed' opts = r' at hread ⊢
  cases hread with
  | ok hparsed => exact .accepted opts.isStrict hparsed.diagnostics (.ok hparsed)
  | error hds => exact .error hds

theorem parseSource_agree (h : lex src limits = .ok lexed) (h' : lex src' limits' = .ok lexed')
    (hsame : lexed.SameStream lexed') (opts : Options)
    (hfits : lexed.tokens.size ≤ opts.limits.clamped.maxTokens) :
    Agree Parsed.SameProgram (parseSource src opts) (parseSource src' opts) := by
  rw [parseSource_of_lex_ok opts (lex_of_fits h hfits),
    parseSource_of_lex_ok opts (lex_of_fits h' (hsame.size ▸ hfits))]
  exact .accepted opts.isStrict hsame.diagnostics (parse_agree h h' hsame opts)

/-- Sources that are cut into the same tokens become the same text. -/
theorem compileSource_agree (h : lex src limits = .ok lexed) (h' : lex src' limits' = .ok lexed')
    (hsame : lexed.SameStream lexed') (opts : Options)
    (hfits : lexed.tokens.size ≤ opts.limits.clamped.maxTokens) :
    Agree Compilation.SameText (compileSource src opts) (compileSource src' opts) := by
  have hparse := parseSource_agree h h' hsame opts hfits
  unfold compileSource
  cases hparsed : parseSource src opts with
  | error ds =>
    rw [hparsed] at hparse
    generalize parseSource src' opts = r' at hparse ⊢
    cases hparse with
    | error hds => exact .error hds
  | ok parsed =>
    rw [hparsed] at hparse
    cases hparsed' : parseSource src' opts with
    | error ds' =>
      rw [hparsed'] at hparse
      cases hparse
    | ok parsed' =>
      rw [hparsed'] at hparse
      cases hparse with
      | ok hprogram =>
        obtain ⟨_, -, hread⟩ := lexed_of_parseSource hparsed
        obtain ⟨_, -, hread'⟩ := lexed_of_parseSource hparsed'
        obtain ⟨hc, hds⟩ := Target.render_alike hprogram.unplaced (readProgram_shape hread)
          (readProgram_shape hread') opts.support
        simp only [bind, Except.bind, Target.generate, Target.Generated.accept, hds.isEmpty]
        split
        · exact .error (hprogram.diagnostics.append hds)
        · exact .ok ⟨hc, hprogram.diagnostics.append hds⟩

theorem compileSource_of_parse_error {opts : Options} {ds : Diagnostics}
    (h : parseSource src opts = .error ds) : compileSource src opts = .error ds := by
  simp [compileSource, h, bind, Except.bind]

end

/-- Two sources whose tokens are of the same kinds with the same texts, and whose
lexical faults say the same, are one program: whatever the options, they parse
or fail together, the nodes have the same kinds at the same places of the arena,
and the text of C is the same. The same is said about both, unless there are
too many tokens; then each is reported up to the token that is too much. -/
theorem formatting_is_free {src src' : String} {limits limits' : Limits} {lexed lexed' : Lexed}
    (h : lex src limits = .ok lexed) (h' : lex src' limits' = .ok lexed')
    (hsame : lexed.SameStream lexed') (opts : Options) :
    (lexed.tokens.size ≤ opts.limits.clamped.maxTokens →
      Agree Parsed.SameProgram (parseSource src opts) (parseSource src' opts) ∧
        Agree Compilation.SameText (compileSource src opts) (compileSource src' opts)) ∧
    (opts.limits.clamped.maxTokens < lexed.tokens.size →
      ∃ ds ds', lexed.Overrun opts.limits.clamped.maxTokens ds ∧
        lexed'.Overrun opts.limits.clamped.maxTokens ds' ∧
        parseSource src opts = .error ds ∧ parseSource src' opts = .error ds' ∧
        compileSource src opts = .error ds ∧ compileSource src' opts = .error ds') := by
  constructor
  · intro hfits
    exact ⟨parseSource_agree h h' hsame opts hfits, compileSource_agree h h' hsame opts hfits⟩
  · intro hover
    obtain ⟨ds, hlex, hds⟩ := lex_of_overrun h hover
    obtain ⟨ds', hlex', hds'⟩ := lex_of_overrun h' (hsame.size ▸ hover)
    have hparse := parseSource_of_lex_error opts hlex
    have hparse' := parseSource_of_lex_error opts hlex'
    exact ⟨ds, ds', hds, hds', hparse, hparse', compileSource_of_parse_error hparse,
      compileSource_of_parse_error hparse'⟩

def streamOf (src : String) :
    Option (List (TokenKind × Option String) × Array (DiagnosticKind × String)) :=
  (lex src {}).toOption.map fun lexed => (lexed.spelled, lexed.diagnostics.map Diagnostic.said)

theorem sameStream_of_streamOf {src src' : String} (hsome : (streamOf src).isSome)
    (h : streamOf src = streamOf src') :
    ∃ lexed lexed', lex src {} = .ok lexed ∧ lex src' {} = .ok lexed' ∧
      lexed.SameStream lexed' := by
  unfold streamOf at hsome h
  cases hlex : lex src {} with
  | error ds =>
    rw [hlex] at hsome
    cases hsome
  | ok lexed =>
    cases hlex' : lex src' {} with
    | error ds =>
      rw [hlex, hlex'] at h
      cases h
    | ok lexed' =>
      rw [hlex, hlex'] at h
      obtain ⟨htokens, hds⟩ := Prod.mk.inj (Option.some.inj h)
      exact ⟨lexed, lexed', rfl, rfl, htokens, hds⟩

/-- A comment and a line break do not matter. -/
theorem formatting_is_free_comment : ∃ result result',
    compileSource "fn f(a: i32) \x7b g(a); \x7d" {} = .ok result ∧
      compileSource "fn f(a\n: i32 /* size */)\x7bg(a);\x7d // done" {} = .ok result' ∧
      result.c = result'.c := by
  have hsome : (streamOf "fn f(a: i32) \x7b g(a); \x7d").isSome := by decide +kernel
  have hstream : streamOf "fn f(a: i32) \x7b g(a); \x7d" =
      streamOf "fn f(a\n: i32 /* size */)\x7bg(a);\x7d // done" := by decide +kernel
  obtain ⟨lexed, lexed', hlex, hlex', hsame⟩ := sameStream_of_streamOf hsome hstream
  obtain ⟨result, hresult⟩ := exists_of_isOk
    (show (compileSource "fn f(a: i32) \x7b g(a); \x7d" {}).isOk by decide +kernel)
  have hagree := ((formatting_is_free hlex hlex' hsame {}).1 (size_lex_le hlex)).2
  rw [hresult] at hagree
  generalize compileSource "fn f(a\n: i32 /* size */)\x7bg(a);\x7d // done" {} = r at hagree ⊢
  cases hagree with
  | ok hsame => exact ⟨result, _, hresult, rfl, hsame.c⟩

/-- A limit on tokens cuts off faults that stand behind it. -/
theorem token_limit_cuts_reports : ∃ lexed lexed',
    lex "$ a b c" {} = .ok lexed ∧ lex "a b c $" {} = .ok lexed' ∧ lexed.SameStream lexed' ∧
      ¬ SameReports
        (reported Parsed.diagnostics (parseSource "$ a b c" { limits := { maxTokens := 2 } }))
        (reported Parsed.diagnostics (parseSource "a b c $" { limits := { maxTokens := 2 } })) := by
  have hsome : (streamOf "$ a b c").isSome := by decide +kernel
  have hstream : streamOf "$ a b c" = streamOf "a b c $" := by decide +kernel
  obtain ⟨lexed, lexed', hlex, hlex', hsame⟩ := sameStream_of_streamOf hsome hstream
  refine ⟨lexed, lexed', hlex, hlex', hsame, ?_⟩
  intro h
  have hsize := congrArg Array.size h
  rw [Array.size_map, Array.size_map] at hsize
  exact absurd hsize (by decide +kernel)

end StagedCompiler
