import Mathlib.Data.List.Forall2
import StagedCompiler.Proofs.Parser.IdleStatements
import StagedCompiler.Proofs.Tree.Forest
import StagedCompiler.Proofs.Tree.Sorts

/-!
How units are assembled. A reader only ever does one of three things to the
nodes: it moves on in the tokens and leaves them alone, it makes a node out of
the latest nodes that no other node holds, or it drops a statement for good
because no token was taken for it. `History` says so once; that nodes are well
sorted, hold earlier nodes only and share none follows from it without another
look at the readers.
-/

namespace StagedCompiler

/-- A move that leaves the nodes alone: tokens may be taken, and the name for
missing ones may join the table. -/
structure ParseState.Moved (s s' : ParseState) : Prop where
  arena : s'.arena = s.arena
  rest : s'.rest <:+ s.rest
  names (sym : Symbol) :
    s'.names.resolve sym = s.names.resolve sym ∨ s'.names.resolve sym = Parser.missingName

/-- A number that a token spells, or the zero that stands for a missing one. -/
def FromTokens (tokens : List Token) (v : Int) : Prop :=
  v = 0 ∨ ∃ t ∈ tokens, t.kind = .int v

/-- A node of the given kind can be made of the nodes `used`. -/
structure Formed (mode : Mode) (tokens : List Token) (names : Interner) (used : List Built)
    (kind : NodeKind Symbol NodeId) : Prop where
  children : used.map (·.id) = kind.children
  sorted : kind.WellSorted fun P id => ∃ b ∈ used, b.id = id ∧ P b.node.kind = true
  valued : kind.Valued (FromTokens tokens) names.resolve
  target : mode = .strict →
    kind.TargetsPlace fun P id => ∃ b ∈ used, b.id = id ∧ P b.node.kind = true
  floating : kind.Floating fun v => ∃ t ∈ tokens, t.kind = .float v

/-- A state that a reader of `tokens` can come to, with the nodes that no other
node holds, the latest first: those that wait to be used, and the statements
that blocks have dropped. -/
inductive History (c : ParseSettings) (tokens : List Token) :
    ParseState → List Built → List Built → Prop
  | start {s : ParseState} : s.arena.nodes = #[] → s.rest = tokens → History c tokens s [] []
  | move {s s' : ParseState} {loose dropped : List Built} :
      History c tokens s loose dropped → s.Moved s' → History c tokens s' loose dropped
  | node {s : ParseState} {made loose dropped : List Built} {kind : NodeKind Symbol NodeId}
      (span : Span) :
      History c tokens s (made ++ loose) dropped → Formed c.mode tokens s.names made.reverse kind →
        History c tokens (s.grow ⟨kind, span⟩) (⟨s.arena.size, kind, span⟩ :: loose) dropped
  /-- A block passes over a statement for which no token was taken. -/
  | drop {s s' : ParseState} {b : Built} {loose dropped : List Built} {depth : Nat} :
      History c tokens s loose dropped →
        Parser.Drops (Parser.stmt depth (Parser.block depth) (Parser.conditional depth)) c s b s' →
          History c tokens s' loose (b :: dropped)

/-- A state that a reader can come to, whatever was dropped on the way. -/
def Assembly (c : ParseSettings) (tokens : List Token) (s : ParseState) (loose : List Built) :
    Prop :=
  ∃ dropped, History c tokens s loose dropped

/-! ### What follows of the nodes -/

theorem Arena.Is.append {a : Arena} {P : NodeKind Symbol NodeId → Bool} {id : NodeId} {n : Node}
    (h : a.Is P id) : (a.append n).Is P id := by
  obtain ⟨m, hm, hP⟩ := h
  exact ⟨m, node_append_old hm, hP⟩

theorem PrimType.ofName?_missingName : PrimType.ofName? Parser.missingName = none := by
  decide +kernel

/-- What is known of each node of a unit, whoever holds it. -/
structure NodeInOrder (mode : Mode) (tokens : List Token) (s : ParseState) (n : Node) : Prop where
  sorted : n.kind.WellSorted s.arena.Is
  valued : n.kind.Valued (FromTokens tokens) s.names.resolve
  target : mode = .strict → n.kind.TargetsPlace s.arena.Is
  floating : n.kind.Floating fun v => ∃ t ∈ tokens, t.kind = .float v

namespace NodeInOrder

variable {mode : Mode} {tokens : List Token} {s s' : ParseState} {n : Node}

theorem append {m : Node} (h : NodeInOrder mode tokens s n) :
    NodeInOrder mode tokens (s.grow m) n :=
  ⟨h.sorted.imp fun _ _ his => his.append, h.valued,
    fun hstrict => (h.target hstrict).imp fun _ _ his => his.append, h.floating⟩

theorem of_same (h : NodeInOrder mode tokens s n) (harena : s'.arena = s.arena)
    (hnames : s'.names = s.names) : NodeInOrder mode tokens s' n :=
  ⟨harena ▸ h.sorted, hnames ▸ h.valued, harena ▸ h.target, h.floating⟩

end NodeInOrder

namespace History

variable {c : ParseSettings} {tokens : List Token} {s : ParseState} {loose dropped : List Built}

/-- The loose nodes are nodes of the arena. -/
theorem loose_nodes (h : History c tokens s loose dropped) :
    ∀ b ∈ loose, s.arena.nodes[b.id]? = some b.node := by
  induction h with
  | start _ _ => simp
  | move _ hmoved ih =>
    intro b hb
    rw [hmoved.arena]
    exact ih b hb
  | node _ _ _ ih =>
    intro b hb
    rcases List.mem_cons.mp hb with rfl | hb
    · exact Arena.node_append_new
    · exact Arena.node_append_old (ih b (List.mem_append_right _ hb))
  | drop _ hdrops ih =>
    intro b hb
    obtain ⟨span, span', -, harena⟩ := hdrops.idle.arena
    rw [harena]
    exact Arena.node_append_old (Arena.node_append_old (ih b hb))

/-- What was read is a forest whose loose nodes are the waiting and the dropped
ones. -/
theorem forest (h : History c tokens s loose dropped) :
    s.arena.Forest (loose.map (·.id) ++ dropped.map (·.id)) := by
  induction h with
  | start hempty _ =>
    refine ⟨by simp [Arena.held, hempty], fun id n hn => ?_, by simp⟩
    simp [hempty] at hn
  | move _ hmoved ih =>
    rw [hmoved.arena]
    exact ih
  | @node s made loose dropped kind span _ hformed ih =>
    apply Arena.Forest.append
    rw [List.map_append, List.append_assoc] at ih
    refine ih.perm (List.Perm.append_right _ ?_)
    rw [← hformed.children, List.map_reverse]
    exact (List.reverse_perm _).symm
  | drop _ hdrops ih =>
    obtain ⟨span, span', rfl, harena⟩ := hdrops.idle.arena
    rw [harena]
    exact (ih.idle span span').perm List.perm_middle.symm

/-- Whatever the loose nodes are used for, all nodes are in order. -/
theorem in_order (h : History c tokens s loose dropped) :
    ∀ (id : NodeId) (n : Node), s.arena.nodes[id]? = some n → NodeInOrder c.mode tokens s n := by
  induction h with
  | start hempty _ =>
    intro id n hn
    simp [hempty] at hn
  | @move s s' loose dropped _ hmoved ih =>
    intro id n hn
    rw [hmoved.arena] at hn
    have hold := ih id n hn
    refine ⟨hmoved.arena ▸ hold.sorted, hold.valued.imp (fun _ hv => hv) fun sym hsym => ?_,
      hmoved.arena ▸ hold.target, hold.floating⟩
    rcases hmoved.names sym with hsame | hmissing
    · rwa [hsame]
    · rw [hmissing]
      exact PrimType.ofName?_missingName
  | @node s made loose dropped kind span hbefore hformed ih =>
    intro id n hn
    rcases Arena.node_append hn with hold | ⟨-, rfl⟩
    · exact (ih id n hold).append
    · have his : ∀ (P : NodeKind Symbol NodeId → Bool) (id : NodeId),
          (∃ b ∈ made.reverse, b.id = id ∧ P b.node.kind = true) →
            (s.arena.append ⟨kind, span⟩).Is P id := by
        rintro P id ⟨b, hb, rfl, hP⟩
        have hnode := hbefore.loose_nodes b (List.mem_append_left _ (List.mem_reverse.mp hb))
        exact ⟨b.node, Arena.node_append_old hnode, hP⟩
      exact ⟨hformed.sorted.imp his, hformed.valued,
        fun hstrict => (hformed.target hstrict).imp his, hformed.floating⟩
  | @drop s s' b loose dropped depth _ hdrops ih =>
    intro id n hn
    have hidle := hdrops.idle
    obtain ⟨span, span', rfl, harena⟩ := hidle.arena
    rw [harena] at hn
    have hstate : NodeInOrder c.mode tokens
        ((s.grow ⟨.int 0, span⟩).grow ⟨.exprStmt s.arena.size, span'⟩) n := by
      rcases Arena.node_append hn with hold | ⟨-, rfl⟩
      · rcases Arena.node_append hold with hold | ⟨-, rfl⟩
        · exact (ih id n hold).append.append
        · exact ⟨trivial, .inl rfl, fun _ => trivial, trivial⟩
      · have hzero : ((s.arena.append ⟨.int 0, span⟩).append
            ⟨.exprStmt s.arena.size, span'⟩).Is NodeKind.isExpr s.arena.size :=
          ⟨_, Arena.node_append_old Arena.node_append_new, rfl⟩
        exact ⟨hzero, trivial, fun _ => trivial, trivial⟩
    exact hstate.of_same harena hidle.names

end History

namespace Assembly

variable {c : ParseSettings} {tokens : List Token} {s s' : ParseState} {loose : List Built}

theorem start (hempty : s.arena.nodes = #[]) (hrest : s.rest = tokens) : Assembly c tokens s [] :=
  ⟨[], .start hempty hrest⟩

theorem move (h : Assembly c tokens s loose) (hmoved : s.Moved s') :
    Assembly c tokens s' loose := by
  obtain ⟨dropped, hs⟩ := h
  exact ⟨dropped, hs.move hmoved⟩

theorem node {made : List Built} {kind : NodeKind Symbol NodeId} (span : Span)
    (h : Assembly c tokens s (made ++ loose))
    (hformed : Formed c.mode tokens s.names made.reverse kind) :
    Assembly c tokens (s.grow ⟨kind, span⟩) (⟨s.arena.size, kind, span⟩ :: loose) := by
  obtain ⟨dropped, hs⟩ := h
  exact ⟨dropped, hs.node span hformed⟩

theorem drop {b : Built} {depth : Nat} (h : Assembly c tokens s loose)
    (hdrops : Parser.Drops (Parser.stmt depth (Parser.block depth) (Parser.conditional depth)) c s
      b s') : Assembly c tokens s' loose := by
  obtain ⟨dropped, hs⟩ := h
  exact ⟨b :: dropped, hs.drop hdrops⟩

end Assembly

end StagedCompiler
