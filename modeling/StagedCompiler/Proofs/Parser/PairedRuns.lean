import Mathlib.Data.List.Forall2
import StagedCompiler.Proofs.Parser.Running

/-!
Two runs of one reader, side by side. The runs may differ in the places of
their tokens and in the limits, as a `Leeway` says. As long as the first run
goes on, the second does the same; and if the limits are the same, the two give
up together. That formatting does not matter and that limits are mere gates are
two readings of this one fact.
-/

namespace StagedCompiler

/-- What may differ between two runs: places, and limits unless they are
`even`. -/
structure Leeway where
  places : Span → Span → Prop
  /-- Ranges keep to the places of their ends. -/
  places_to {a a' b b' : Span} : places a a' → places b b' → places (a.to b) (a'.to b')
  /-- Places of diagnostics, which need not have one. -/
  spots : Option Span → Option Span → Prop
  spots_some {a a' : Span} : places a a' → spots (some a) (some a')
  even : Prop

namespace Leeway

def ofLimits : Leeway where
  places := Eq
  places_to := by
    rintro a _ b _ rfl rfl
    rfl
  spots := Eq
  spots_some := congrArg some
  even := False

def ofPlaces : Leeway where
  places _ _ := True
  places_to _ _ := trivial
  spots _ _ := True
  spots_some _ := trivial
  even := True

variable (w : Leeway)

structure Limit (n n' : Nat) : Prop where
  le : n ≤ n'
  eq : w.even → n = n'

structure TokenPair (t t' : Token) : Prop where
  kind : t.kind = t'.kind
  span : w.places t.span t'.span

structure DiagnosticPair (d d' : Diagnostic) : Prop where
  kind : d.kind = d'.kind
  message : d.message = d'.message
  span : w.spots d.span d'.span

def DiagnosticsPair (ds ds' : Diagnostics) : Prop :=
  List.Forall₂ w.DiagnosticPair ds.toList ds'.toList

structure FieldPair (f f' : FieldInit Symbol NodeId) : Prop where
  name : f.name = f'.name
  value : f.value = f'.value
  span : w.places f.span f'.span

/-- Kinds of nodes hold places only with the fields of struct literals. -/
inductive KindPair : NodeKind Symbol NodeId → NodeKind Symbol NodeId → Prop
  | same (kind : NodeKind Symbol NodeId) : KindPair kind kind
  | structLit (name : Symbol) {fields fields' : List (FieldInit Symbol NodeId)} :
      List.Forall₂ w.FieldPair fields fields' →
        KindPair (.structLit name fields) (.structLit name fields')

structure NodePair (n n' : Node) : Prop where
  kind : w.KindPair n.kind n'.kind
  span : w.places n.span n'.span

structure BuiltPair (b b' : Built) : Prop where
  id : b.id = b'.id
  node : w.NodePair b.node b'.node

structure ArenaPair (a a' : Arena) : Prop where
  nodes : List.Forall₂ w.NodePair a.nodes.toList a'.nodes.toList
  maxNodes : w.Limit a.maxNodes a'.maxNodes
  maxChildren : w.Limit a.maxChildren a'.maxChildren

structure SettingsPair (c c' : ParseSettings) : Prop where
  mode : c.mode = c'.mode
  maxDepth : w.Limit c.maxDepth c'.maxDepth
  eofSpan : w.places c.eofSpan c'.eofSpan
  tokenCount : c.tokenCount = c'.tokenCount

structure StatePair (s s' : ParseState) : Prop where
  rest : List.Forall₂ w.TokenPair s.rest s'.rest
  consumed : s.consumed = s'.consumed
  arena : w.ArenaPair s.arena s'.arena
  names : s.names = s'.names
  diagnostics : w.DiagnosticsPair s.diagnostics s'.diagnostics

/-- How two runs end: alike, or the first gives up, and then the second does so
too if the limits are the same. -/
inductive Outcome {α : Type} (R : α → α → Prop) :
    Except Diagnostics (α × ParseState) →
      Except Diagnostics (α × ParseState) → Prop
  | ok {a a' : α} {s s' : ParseState} :
      R a a' → w.StatePair s s' → Outcome R (.ok (a, s)) (.ok (a', s'))
  | failed {ds : Diagnostics}
      {r : Except Diagnostics (α × ParseState)} :
      (w.even → ∃ ds', r = .error ds' ∧ w.DiagnosticsPair ds ds') → Outcome R (.error ds) r

section

variable {w}

theorem KindPair.children {kind kind' : NodeKind Symbol NodeId} (h : w.KindPair kind kind') :
    kind.children = kind'.children := by
  cases h with
  | same _ => rfl
  | structLit name hfields =>
    rw [NodeKind.children, NodeKind.children]
    induction hfields with
    | nil => rfl
    | cons hfield _ ih => rw [List.map_cons, List.map_cons, hfield.value, ih]

theorem KindPair.label {kind kind' : NodeKind Symbol NodeId} (h : w.KindPair kind kind') :
    kind.label = kind'.label := by
  cases h <;> rfl

theorem KindPair.isPlace {kind kind' : NodeKind Symbol NodeId} (h : w.KindPair kind kind') :
    kind.isPlace = kind'.isPlace := by
  cases h <;> rfl

theorem DiagnosticsPair.push {ds ds' : Diagnostics} {d d' : Diagnostic}
    (h : w.DiagnosticsPair ds ds') (hd : w.DiagnosticPair d d') :
    w.DiagnosticsPair (ds.push d) (ds'.push d') := by
  unfold DiagnosticsPair at h ⊢
  rw [Array.toList_push, Array.toList_push]
  exact List.rel_append h (.cons hd .nil)

theorem diagnostic_of (kind : DiagnosticKind) (message : String) {span span' : Span}
    (h : w.places span span') :
    w.DiagnosticPair ⟨kind, message, some span⟩ ⟨kind, message, some span'⟩ :=
  ⟨rfl, rfl, w.spots_some h⟩

theorem ArenaPair.size {a a' : Arena} (h : w.ArenaPair a a') : a.size = a'.size := by
  have hlength := h.nodes.length_eq
  rw [Array.length_toList, Array.length_toList] at hlength
  exact hlength

/-- A node that the first arena takes is taken by the second. -/
theorem ArenaPair.refusal?_none {a a' : Arena} (h : w.ArenaPair a a')
    {kind kind' : NodeKind Symbol NodeId} (hkind : w.KindPair kind kind')
    (hnone : a.refusal? kind = none) : a'.refusal? kind' = none := by
  rw [Arena.refusal?_eq_none] at hnone ⊢
  rw [← hkind.children, ← h.size]
  exact ⟨Nat.le_trans hnone.1 h.maxChildren.le, Nat.lt_of_lt_of_le hnone.2 h.maxNodes.le⟩

theorem ArenaPair.refusal?_eq {a a' : Arena} (h : w.ArenaPair a a')
    {kind kind' : NodeKind Symbol NodeId} (hkind : w.KindPair kind kind') (heven : w.even) :
    a.refusal? kind = a'.refusal? kind' := by
  have hsize : a.nodes.size = a'.nodes.size := h.size
  unfold Arena.refusal?
  rw [hkind.children, hkind.label, hsize, h.maxNodes.eq heven, h.maxChildren.eq heven]

theorem ArenaPair.append {a a' : Arena} (h : w.ArenaPair a a')
    {n n' : Node} (hn : w.NodePair n n') : w.ArenaPair (a.append n) (a'.append n') := by
  refine ⟨?_, h.maxNodes, h.maxChildren⟩
  simp only [Arena.append, Array.toList_push]
  exact List.rel_append h.nodes (.cons hn .nil)

theorem StatePair.next {s s' : ParseState} (h : w.StatePair s s') : w.StatePair s.next s'.next := by
  unfold ParseState.next
  obtain ⟨rest, consumed, arena, names, ds⟩ := s
  obtain ⟨rest', consumed', arena', names', ds'⟩ := s'
  obtain ⟨hrest, hconsumed, harena, hnames, hds⟩ := h
  cases hrest with
  | nil => exact ⟨.nil, hconsumed, harena, hnames, hds⟩
  | cons _ htail => exact ⟨htail, congrArg (· + 1) hconsumed, harena, hnames, hds⟩

theorem StatePair.front {c c' : ParseSettings} {s s' : ParseState} (hc : w.SettingsPair c c')
    (h : w.StatePair s s') : w.TokenPair (Parser.front c s) (Parser.front c' s') := by
  have hrest := h.rest
  unfold Parser.front
  generalize s.rest = rest at hrest ⊢
  generalize s'.rest = rest' at hrest ⊢
  cases hrest with
  | nil => exact ⟨rfl, hc.eofSpan⟩
  | cons ht _ => exact ht

end

end Leeway

namespace Parser

/-- Side by side, the two readers do the same and give results that are related. -/
def Paired {α : Type} (w : Leeway) (R : α → α → Prop) (p p' : Parser α) : Prop :=
  ∀ ⦃c c' : ParseSettings⦄ ⦃s s' : ParseState⦄, w.SettingsPair c c' → w.StatePair s s' →
    w.Outcome R (p c s) (p' c' s')

/-! ### Steps -/

section

variable {w : Leeway} {α β : Type} {R : α → α → Prop} {Q : β → β → Prop}

theorem paired_pure {a a' : α} (h : R a a') : Paired w R (pure a) (pure a') :=
  fun _ _ _ _ _ hs => .ok h hs

/-- Paired readers may be put in sequence. -/
theorem Paired.bind {p p' : Parser α} {f f' : α → Parser β} (hp : Paired w R p p')
    (hf : ∀ a a', R a a' → Paired w Q (f a) (f' a')) : Paired w Q (p >>= f) (p' >>= f') := by
  intro c c' s s' hc hs
  have hfirst := hp hc hs
  rw [run_bind, run_bind]
  generalize p c s = r at hfirst ⊢
  generalize p' c' s' = r' at hfirst ⊢
  cases hfirst with
  | ok ha hs => exact hf _ _ ha hc hs
  | failed hds =>
    apply Leeway.Outcome.failed
    intro heven
    obtain ⟨ds', rfl, hpair⟩ := hds heven
    exact ⟨ds', rfl, hpair⟩

/-- A first step whose results are the same. -/
theorem Paired.bind_eq {p p' : Parser α} {f f' : α → Parser β} (hp : Paired w Eq p p')
    (hf : ∀ a, Paired w Q (f a) (f' a)) : Paired w Q (p >>= f) (p' >>= f') := by
  apply hp.bind
  rintro a _ rfl
  exact hf a

theorem Paired.imp {R' : α → α → Prop} {p p' : Parser α} (hp : Paired w R p p')
    (h : ∀ a a', R a a' → R' a a') : Paired w R' p p' := by
  rw [← bind_pure p, ← bind_pure p']
  exact hp.bind fun a a' ha => paired_pure (h a a' ha)

theorem paired_current : Paired w w.TokenPair current current :=
  fun _ _ _ _ hc hs => .ok (hs.front hc) hs

/-- A reader that looks at the front token: the two tokens are of one kind. -/
theorem Paired.current {f f' : Token → Parser β}
    (h : ∀ kind span span', w.places span span' → Paired w Q (f ⟨kind, span⟩) (f' ⟨kind, span'⟩)) :
    Paired w Q (Parser.current >>= f) (Parser.current >>= f') := by
  apply paired_current.bind
  rintro ⟨kind, span⟩ ⟨kind', span'⟩ ⟨hkind, hspan⟩
  cases hkind
  exact h kind span span' hspan

theorem paired_peek (n : Nat) : Paired w w.TokenPair (peek n) (peek n) := by
  intro c c' s s' hc hs
  refine .ok ?_ hs
  have hrest := List.forall₂_drop n hs.rest
  generalize s.rest.drop n = rest at hrest ⊢
  generalize s'.rest.drop n = rest' at hrest ⊢
  cases hrest with
  | nil => exact ⟨rfl, hc.eofSpan⟩
  | cons ht _ => exact ht

theorem paired_advance : Paired w Eq advance advance := by
  intro c c' s s' hc hs
  have hrun (c : ParseSettings) (s : ParseState) : advance c s = .ok ((), s.next) := by
    unfold advance ParseState.next
    cases s.rest <;> rfl
  rw [hrun, hrun]
  exact .ok rfl hs.next

theorem takeWhile_pair {rest rest' : List Token} (h : List.Forall₂ w.TokenPair rest rest')
    (skip : TokenKind → Bool) :
    (rest.takeWhile fun t => skip t.kind).length =
      (rest'.takeWhile fun t => skip t.kind).length := by
  induction h with
  | nil => rfl
  | cons ht _ ih =>
    rw [List.takeWhile_cons, List.takeWhile_cons, ht.kind]
    split
    · rw [List.length_cons, List.length_cons, ih]
    · rfl

theorem paired_advanceWhile (skip : TokenKind → Bool) :
    Paired w Eq (advanceWhile skip) (advanceWhile skip) := by
  intro c c' s s' hc hs
  have hcount := takeWhile_pair hs.rest skip
  unfold advanceWhile
  dsimp only
  rw [← hcount]
  refine .ok rfl ⟨List.forall₂_drop _ hs.rest, ?_, hs.arena, hs.names, hs.diagnostics⟩
  exact congrArg (· + _) hs.consumed

theorem paired_fault (f : ParseFault) {span span' : Span} (h : w.places span span') :
    Paired w Eq (fault f span) (fault f span') := by
  intro c c' s s' hc hs
  have hds := hs.diagnostics.push (Leeway.diagnostic_of .parse f.message h)
  unfold fault
  rw [← hc.mode]
  cases c.mode with
  | strict => exact .failed fun _ => ⟨_, rfl, hds⟩
  | lenient => exact .ok rfl ⟨hs.rest, hs.consumed, hs.arena, hs.names, hds⟩

theorem paired_intern (text : String) : Paired w Eq (intern text) (intern text) := by
  intro c c' s s' hc hs
  unfold intern
  rw [← hs.names]
  exact .ok rfl ⟨hs.rest, hs.consumed, hs.arena, rfl, hs.diagnostics⟩

theorem paired_resolve (sym : Symbol) : Paired w Eq (resolve sym) (resolve sym) := by
  intro c c' s s' hc hs
  exact .ok (by rw [hs.names]) hs

theorem paired_consumed : Paired w Eq consumed consumed :=
  fun _ _ _ _ _ hs => .ok hs.consumed hs

theorem paired_rounds : Paired w Eq rounds rounds :=
  fun _ _ _ _ hc hs => .ok (by rw [hc.tokenCount]) hs

/-- Paired kinds make paired nodes. -/
theorem paired_build {kind kind' : NodeKind Symbol NodeId} {span span' : Span}
    (hkind : w.KindPair kind kind') (hspan : w.places span span') :
    Paired w w.BuiltPair (build kind span) (build kind' span') := by
  intro c c' s s' hc hs
  unfold build
  cases hrefusal : s.arena.refusal? kind with
  | none =>
    rw [hs.arena.refusal?_none hkind hrefusal]
    refine .ok ⟨hs.arena.size, hkind, hspan⟩ ⟨hs.rest, hs.consumed, ?_, hs.names, hs.diagnostics⟩
    exact hs.arena.append ⟨hkind, hspan⟩
  | some e =>
    apply Leeway.Outcome.failed
    intro heven
    rw [← hs.arena.refusal?_eq hkind heven, hrefusal]
    exact ⟨_, rfl, hs.diagnostics.push (Leeway.diagnostic_of _ _ hspan)⟩

/-- The second reader may go on where the first is too deep, if it has a larger
limit. -/
theorem paired_tooDeep {p : Parser α} (h : w.even → p = tooDeep) : Paired w R tooDeep p := by
  intro c c' s s' hc hs
  apply Leeway.Outcome.failed
  intro heven
  rw [h heven]
  refine ⟨_, rfl, hs.diagnostics.push ?_⟩
  rw [hc.maxDepth.eq heven]
  exact Leeway.diagnostic_of _ _ (hs.front hc).span

theorem paired_withMaxDepth {f f' : Nat → Parser α}
    (h : ∀ depth depth', w.Limit depth depth' → Paired w R (f depth) (f' depth')) :
    Paired w R (do f (← read).maxDepth) (do f' (← read).maxDepth) :=
  fun _ _ _ _ hc hs => h _ _ hc.maxDepth hc hs

end

end Parser

end StagedCompiler
