import StagedCompiler.Proofs.Tree.AssemblingReaders

/-!
Where nodes stand. The tokens of a stream stand one behind the other, and a
reader goes through them from front to back. So the nodes that it makes form a
row: each starts at a token, none ends behind the token that is now at the
front, and later nodes neither start nor end earlier. In strict mode none
reaches into that token, and the nodes of a row do not touch one another. A
node around a whole row then holds all of it.
-/

namespace StagedCompiler

namespace Span

/-- The second range neither starts nor ends before the first. -/
instance : LE Span :=
  ⟨fun a b => a.start ≤ b.start ∧ a.stop ≤ b.stop⟩

theorem le_refl (a : Span) : a ≤ a :=
  ⟨Nat.le_refl _, Nat.le_refl _⟩

theorem le_trans {a b d : Span} (h : a ≤ b) (h' : b ≤ d) : a ≤ d :=
  ⟨Nat.le_trans h.1 h'.1, Nat.le_trans h.2 h'.2⟩

def place (a : Span) : Nat × Nat × Nat :=
  (a.start, a.line, a.col)

theorem start_to (a b : Span) : (a.to b).start = a.start :=
  rfl

theorem stop_to {a b : Span} (h : a.stop ≤ b.stop) : (a.to b).stop = b.stop :=
  Nat.max_eq_left h

end Span

/-- The tokens of a stream, one behind the other up to the closing one. -/
structure Laid (c : ParseSettings) (stream : List Token) : Prop where
  forward : ∀ t ∈ stream, t.span.start ≤ t.span.stop
  apart : stream.Pairwise fun t t' => t.span.stop ≤ t'.span.start
  bounded : ∀ t ∈ stream, t.span.stop ≤ c.eofSpan.stop
  closing : c.eofSpan.start = c.eofSpan.stop

/-- A node starts at a token, and its children lie inside it, in order and
apart from one another if the mode is strict. -/
structure NodeFits (c : ParseSettings) (stream : List Token) (a : Arena) (n : Node) : Prop where
  starts : ∃ t ∈ stream, t.span.place = n.span.place
  forward : n.span.start ≤ n.span.stop
  bounded : n.span.stop ≤ c.eofSpan.stop
  inside : ∀ child ∈ n.kind.children, ∃ m, a.nodes[child]? = some m ∧
    n.span.start ≤ m.span.start ∧ m.span.stop ≤ n.span.stop
  apart : c.mode = .strict → n.kind.children.Pairwise fun i j => ∀ m m',
    a.nodes[i]? = some m → a.nodes[j]? = some m' → m.span.stop ≤ m'.span.start

theorem NodeFits.append {c : ParseSettings} {stream : List Token} {a : Arena} {n m : Node}
    (h : NodeFits c stream a n) : NodeFits c stream (a.append m) n where
  starts := h.starts
  forward := h.forward
  bounded := h.bounded
  inside := by
    intro child hchild
    obtain ⟨held, hheld, hinside⟩ := h.inside child hchild
    exact ⟨held, Arena.node_append_old hheld, hinside⟩
  apart := by
    intro hstrict
    apply (h.apart hstrict).imp_of_mem
    intro i j hi hj hapart m1 m2 hm1 hm2
    obtain ⟨held1, hheld1, -⟩ := h.inside i hi
    obtain ⟨held2, hheld2, -⟩ := h.inside j hj
    rw [Arena.node_append_old hheld1] at hm1
    rw [Arena.node_append_old hheld2] at hm2
    cases hm1
    cases hm2
    exact hapart _ _ hheld1 hheld2

namespace Parser

/-- The tokens still to be taken, the closing one included. -/
def remaining (c : ParseSettings) (s : ParseState) : List Token :=
  s.rest ++ [⟨.eof, c.eofSpan⟩]

/-- How far nodes may reach: up to the front token, and over it if the mode lets
a reader make a node without taking it. -/
def edge (c : ParseSettings) (s : ParseState) : Nat :=
  match c.mode with
  | .strict => (front c s).span.start
  | .lenient => (front c s).span.stop

/-- A state inside a stream, all nodes of which stand where they should. -/
structure Sound (c : ParseSettings) (stream : List Token) (s : ParseState) : Prop where
  laid : Laid c stream
  within : remaining c s <:+ stream
  fits : ∀ (id : NodeId) (n : Node), s.arena.nodes[id]? = some n → NodeFits c stream s.arena n

/-- The nodes `bs` were made one after the other on the way from `s` to `s'`. -/
structure Row (c : ParseSettings) (stream : List Token) (s : ParseState) (bs : List Built)
    (s' : ParseState) : Prop where
  origin : Sound c stream s
  sound : Sound c stream s'
  kept : ∀ (id : NodeId) (n : Node), s.arena.nodes[id]? = some n → s'.arena.nodes[id]? = some n
  passed : (front c s).span ≤ (front c s').span
  held : ∀ b ∈ bs, s'.arena.nodes[b.id]? = some b.node
  after : ∀ b ∈ bs, (front c s).span ≤ b.span
  before : ∀ b ∈ bs, b.span.start ≤ (front c s').span.start ∧ b.span.stop ≤ edge c s'
  rising : bs.Pairwise fun b b' => b.span ≤ b'.span
  apart : c.mode = .strict → bs.Pairwise fun b b' => b.span.stop ≤ b'.span.start

section

variable {c : ParseSettings} {stream : List Token} {s s' s'' : ParseState} {bs bs' : List Built}
  {b : Built}

/-! ### The front token -/

theorem remaining_eq (c : ParseSettings) (s : ParseState) :
    ∃ later, remaining c s = front c s :: later := by
  unfold remaining front
  cases s.rest with
  | nil => exact ⟨[], rfl⟩
  | cons t rest => exact ⟨rest ++ [_], rfl⟩

theorem front_mem_remaining (c : ParseSettings) (s : ParseState) : front c s ∈ remaining c s := by
  obtain ⟨later, hlater⟩ := remaining_eq c s
  rw [hlater]
  exact List.mem_cons_self

theorem remaining_suffix (hrest : s'.rest <:+ s.rest) : remaining c s' <:+ remaining c s := by
  obtain ⟨taken, htaken⟩ := hrest
  refine ⟨taken, ?_⟩
  rw [remaining, remaining, ← List.append_assoc, htaken]

theorem Sound.front_mem (h : Sound c stream s) : front c s ∈ stream :=
  h.within.subset (front_mem_remaining c s)

theorem Sound.front_forward (h : Sound c stream s) :
    (front c s).span.start ≤ (front c s).span.stop :=
  h.laid.forward _ h.front_mem

theorem Sound.start_le_edge (h : Sound c stream s) : (front c s).span.start ≤ edge c s := by
  unfold edge
  split
  · exact Nat.le_refl _
  · exact h.front_forward

theorem Sound.edge_le_stop (h : Sound c stream s) : edge c s ≤ (front c s).span.stop := by
  unfold edge
  split
  · exact h.front_forward
  · exact Nat.le_refl _

theorem edge_mono (h : (front c s).span ≤ (front c s').span) : edge c s ≤ edge c s' := by
  unfold edge
  split
  · exact h.1
  · exact h.2

/-- The front token of a later state is the same one or stands behind it. -/
theorem Sound.front_of_suffix (h : Sound c stream s) (hrest : s'.rest <:+ s.rest) :
    front c s' = front c s ∨ (front c s).span.stop ≤ (front c s').span.start := by
  obtain ⟨later, hlater⟩ := remaining_eq c s
  obtain ⟨later', hlater'⟩ := remaining_eq c s'
  have hsuffix : remaining c s' <:+ remaining c s := remaining_suffix hrest
  have hapart := h.laid.apart.sublist h.within.sublist
  rw [hlater] at hsuffix hapart
  rw [hlater'] at hsuffix
  rcases List.suffix_cons_iff.mp hsuffix with hsame | hlater''
  · exact .inl (List.cons.inj hsame).1
  · have hmem : front c s' ∈ later := hlater''.subset List.mem_cons_self
    exact .inr ((List.pairwise_cons.mp hapart).1 _ hmem)

theorem Sound.passed_of_suffix (h : Sound c stream s) (hrest : s'.rest <:+ s.rest) :
    (front c s).span ≤ (front c s').span := by
  have hforward := h.front_forward
  have hmem : front c s' ∈ stream :=
    h.within.subset ((remaining_suffix hrest).subset (front_mem_remaining c s'))
  have hforward' := h.laid.forward _ hmem
  rcases h.front_of_suffix hrest with hsame | hbehind
  · rw [hsame]
    exact Span.le_refl _
  · exact ⟨by omega, by omega⟩

/-- A token ends before the one behind it starts. -/
theorem Sound.stop_le_next (h : Sound c stream s) :
    (front c s).span.stop ≤ (front c s.next).span.start := by
  cases hrest : s.rest with
  | nil =>
    have hfront (s : ParseState) (hs : s.rest = []) : (front c s).span = c.eofSpan := by
      unfold front
      rw [hs]
      rfl
    rw [hfront s hrest, hfront s.next (by rw [s.next_rest, hrest]; rfl)]
    exact Nat.le_of_eq h.laid.closing.symm
  | cons t rest =>
    have hapart := h.laid.apart.sublist h.within.sublist
    have hfront : front c s = t := front_of_rest hrest
    obtain ⟨later, hlater⟩ := remaining_eq c s.next
    rw [remaining, s.next_rest, hrest, List.tail_cons] at hlater
    rw [remaining, hrest, List.cons_append, hlater] at hapart
    rw [hfront]
    exact (List.pairwise_cons.mp hapart).1 _ List.mem_cons_self

/-! ### Rows -/

theorem Sound.row (h : Sound c stream s) : Row c stream s [] s where
  origin := h
  sound := h
  kept _ _ hn := hn
  passed := Span.le_refl _
  held := List.forall_mem_nil _
  after := List.forall_mem_nil _
  before := List.forall_mem_nil _
  rising := .nil
  apart _ := .nil

/-- A move that leaves the nodes alone makes an empty row. -/
theorem Sound.moved (h : Sound c stream s) (hmoved : s.Moved s') : Row c stream s [] s' where
  origin := h
  sound := by
    refine ⟨h.laid, (remaining_suffix hmoved.rest).trans h.within, ?_⟩
    rw [hmoved.arena]
    exact h.fits
  kept := by
    rw [hmoved.arena]
    exact fun _ _ hn => hn
  passed := h.passed_of_suffix hmoved.rest
  held := List.forall_mem_nil _
  after := List.forall_mem_nil _
  before := List.forall_mem_nil _
  rising := .nil
  apart _ := .nil

/-- Nodes do not end behind the front token. -/
theorem Row.le_front (h : Row c stream s bs s') (hb : b ∈ bs) : b.span ≤ (front c s').span := by
  obtain ⟨hstart, hstop⟩ := h.before b hb
  exact ⟨hstart, Nat.le_trans hstop h.sound.edge_le_stop⟩

/-- Two rows, one behind the other. -/
theorem Row.append (h : Row c stream s bs s') (h' : Row c stream s' bs' s'') :
    Row c stream s (bs ++ bs') s'' where
  origin := h.origin
  sound := h'.sound
  kept id n hn := h'.kept id n (h.kept id n hn)
  passed := Span.le_trans h.passed h'.passed
  held := by
    intro b hb
    rcases List.mem_append.mp hb with hb | hb
    · exact h'.kept _ _ (h.held b hb)
    · exact h'.held b hb
  after := by
    intro b hb
    rcases List.mem_append.mp hb with hb | hb
    · exact h.after b hb
    · exact Span.le_trans h.passed (h'.after b hb)
  before := by
    intro b hb
    rcases List.mem_append.mp hb with hb | hb
    · obtain ⟨hstart, hstop⟩ := h.before b hb
      exact ⟨Nat.le_trans hstart h'.passed.1, Nat.le_trans hstop (edge_mono h'.passed)⟩
    · exact h'.before b hb
  rising := by
    refine List.pairwise_append.mpr ⟨h.rising, h'.rising, ?_⟩
    intro b hb b' hb'
    exact Span.le_trans (h.le_front hb) (h'.after b' hb')
  apart := by
    intro hstrict
    refine List.pairwise_append.mpr ⟨h.apart hstrict, h'.apart hstrict, ?_⟩
    intro b hb b' hb'
    have hstop := (h.before b hb).2
    have hstart := (h'.after b' hb').1
    simp only [edge, hstrict] at hstop
    exact Nat.le_trans hstop hstart

theorem Row.move (h : Row c stream s bs s') (hmoved : s'.Moved s'') : Row c stream s bs s'' := by
  have hrow := h.append (h.sound.moved hmoved)
  rw [List.append_nil] at hrow
  exact hrow

/-- Some of the nodes of a row. -/
theorem Row.sublist (h : Row c stream s bs s') (hsub : bs'.Sublist bs) : Row c stream s bs' s' where
  origin := h.origin
  sound := h.sound
  kept := h.kept
  passed := h.passed
  held b hb := h.held b (hsub.subset hb)
  after b hb := h.after b (hsub.subset hb)
  before b hb := h.before b (hsub.subset hb)
  rising := h.rising.sublist hsub
  apart hstrict := (h.apart hstrict).sublist hsub

/-! ### Nodes around a row -/

/-- A range may end at the end of `close`: behind all nodes of the row, and not
beyond the edge. -/
structure Closes (c : ParseSettings) (stream : List Token) (s : ParseState) (bs : List Built)
    (close : Span) (s' : ParseState) : Prop where
  row : Row c stream s bs s'
  first : (front c s).span.stop ≤ close.stop
  nodes : ∀ b ∈ bs, b.span.stop ≤ close.stop
  edge : close.stop ≤ edge c s'

/-- A range may start at the start of `start`: at a token, and before all nodes
of the row. -/
structure Opens (c : ParseSettings) (stream : List Token) (s : ParseState) (bs : List Built)
    (start close : Span) (s' : ParseState) : Prop where
  starts : ∃ t ∈ stream, t.span.place = start.place
  first : (front c s).span.start ≤ start.start
  nodes : ∀ b ∈ bs, start.start ≤ b.span.start
  passed : start.start ≤ (front c s').span.start
  forward : start.start ≤ start.stop
  closed : start.stop ≤ close.stop

variable {start close : Span} {kind : NodeKind Symbol NodeId}

/-- The front token closes a row when it is taken. -/
theorem Row.take (h : Row c stream s bs s') :
    Closes c stream s bs (front c s').span s'.next := by
  have hrow := h.move (.next s')
  refine ⟨hrow, h.passed.2, fun b hb => (h.le_front hb).2, ?_⟩
  exact Nat.le_trans h.sound.stop_le_next hrow.sound.start_le_edge

/-- In lenient mode it may close a row where it stands. -/
theorem Row.leave (h : Row c stream s bs s') (hmode : c.mode = .lenient) (hmoved : s'.Moved s'')
    (hrest : s''.rest = s'.rest) : Closes c stream s bs (front c s').span s'' := by
  have hrow := h.move hmoved
  refine ⟨hrow, h.passed.2, fun b hb => (h.le_front hb).2, ?_⟩
  have hfront : front c s'' = front c s' := by
    unfold front
    rw [hrest]
  simp only [Parser.edge, hmode, hfront]
  exact Nat.le_refl _

/-- The last node closes its row. -/
theorem Row.closes_last (h : Row c stream s (bs ++ [b]) s') :
    Closes c stream s (bs ++ [b]) b.span s' := by
  have hmem : b ∈ bs ++ [b] := List.mem_append_right _ List.mem_cons_self
  refine ⟨h, (h.after b hmem).2, ?_, (h.before b hmem).2⟩
  intro b' hb'
  rcases List.mem_append.mp hb' with hb' | hb'
  · have hrising := (List.pairwise_append.mp h.rising).2.2
    exact (hrising b' hb' b List.mem_cons_self).2
  · cases List.mem_singleton.mp hb'
    exact Nat.le_refl _

theorem Row.opens_first (h : Row c stream s bs s') (hclosed : (front c s).span.stop ≤ close.stop) :
    Opens c stream s bs (front c s).span close s' :=
  ⟨⟨_, h.origin.front_mem, rfl⟩, Nat.le_refl _, fun b hb => (h.after b hb).1, h.passed.1,
    h.origin.front_forward, hclosed⟩

theorem Closes.opens_base (h : Closes c stream s (b :: bs) close s') :
    Opens c stream s (b :: bs) b.span close s' := by
  have hfits := h.row.sound.fits _ _ (h.row.held b List.mem_cons_self)
  refine ⟨hfits.starts, (h.row.after b List.mem_cons_self).1, ?_,
    (h.row.before b List.mem_cons_self).1, hfits.forward, h.nodes b List.mem_cons_self⟩
  intro b' hb'
  rcases List.mem_cons.mp hb' with rfl | hb'
  · exact Nat.le_refl _
  · exact ((List.pairwise_cons.mp h.row.rising).1 b' hb').1

/-- A node around a row fits if it opens before the row and closes behind it. -/
theorem Row.fits (h : Row c stream s bs s') (hopens : Opens c stream s bs start close s')
    (hnodes : ∀ b ∈ bs, b.span.stop ≤ close.stop) (hbounded : close.stop ≤ c.eofSpan.stop)
    (hchildren : kind.children = bs.map (·.id)) :
    NodeFits c stream s'.arena ⟨kind, start.to close⟩ where
  starts := hopens.starts
  forward := by
    rw [Span.start_to, Span.stop_to hopens.closed]
    exact Nat.le_trans hopens.forward hopens.closed
  bounded := by
    rw [Span.stop_to hopens.closed]
    exact hbounded
  inside := by
    intro child hchild
    rw [hchildren] at hchild
    obtain ⟨b, hb, rfl⟩ := List.mem_map.mp hchild
    rw [Span.start_to, Span.stop_to hopens.closed]
    exact ⟨b.node, h.held b hb, hopens.nodes b hb, hnodes b hb⟩
  apart := by
    intro hstrict
    rw [hchildren, List.pairwise_map]
    apply (h.apart hstrict).imp_of_mem
    intro b b' hb hb' hapart m m' hm hm'
    rw [h.held b hb] at hm
    rw [h.held b' hb'] at hm'
    cases hm
    cases hm'
    exact hapart

theorem Sound.grow (h : Sound c stream s) {n : Node} (hn : NodeFits c stream s.arena n) :
    Sound c stream (s.grow n) := by
  refine ⟨h.laid, h.within, ?_⟩
  intro id m hm
  rcases Arena.node_append hm with hold | ⟨-, rfl⟩
  · exact (h.fits id m hold).append
  · exact hn.append

theorem Sound.front_bounded (h : Sound c stream s) : (front c s).span.stop ≤ c.eofSpan.stop :=
  h.laid.bounded _ h.front_mem

/-- A node around a row holds all of it, and is a row of its own. -/
theorem Closes.grow (h : Closes c stream s bs close s')
    (hopens : Opens c stream s bs start close s') (hchildren : kind.children = bs.map (·.id)) :
    Row c stream s [⟨s'.arena.size, kind, start.to close⟩] (s'.grow ⟨kind, start.to close⟩) where
  origin := h.row.origin
  sound := by
    have hbounded := Nat.le_trans h.edge h.row.sound.edge_le_stop
    apply h.row.sound.grow
    exact h.row.fits hopens h.nodes (Nat.le_trans hbounded h.row.sound.front_bounded) hchildren
  kept id n hn := Arena.node_append_old (h.row.kept id n hn)
  passed := h.row.passed
  held := by
    intro b hb
    cases List.mem_singleton.mp hb
    exact Arena.node_append_new
  after := by
    intro b hb
    cases List.mem_singleton.mp hb
    refine ⟨hopens.first, ?_⟩
    rw [Built.span, Span.stop_to hopens.closed]
    exact h.first
  before := by
    intro b hb
    cases List.mem_singleton.mp hb
    refine ⟨hopens.passed, ?_⟩
    rw [Built.span, Span.stop_to hopens.closed]
    exact h.edge
  rising := List.pairwise_singleton _ _
  apart _ := List.pairwise_singleton _ _

end

open Ingredient (nodes)

/-- Nodes that stand where they should obey what is asked of rows. -/
def spanRows (c : ParseSettings) (stream : List Token) : Rows c stream where
  Row s xs s' := Row c stream s (nodes xs) s'
  Closes s xs close s' := Closes c stream s (nodes xs) close s'
  rest h := fun _ ht => h.sound.within.subset (List.mem_append_left _ ht)
  empty h := h.sound.row
  append h h' := by
    rw [Ingredient.nodes_append]
    exact h.append h'
  row := Closes.row
  take h := by
    rw [Ingredient.nodes_append, TokenKind.nodes_bearing, List.append_nil]
    exact h.take
  move h _ hmoved := h.move hmoved
  leave missing h hmode hmoved hrest := by
    rw [Ingredient.nodes_append, Ingredient.nodes_map_word, List.append_nil]
    exact h.leave hmode hmoved hrest
  last h := by
    rw [Ingredient.nodes_append] at h ⊢
    exact h.closes_last
  first h hmade := h.grow (h.row.opens_first h.first) hmade.formed.children.symm
  base h hmade := h.grow h.opens_base hmade.formed.children.symm
  drop h h' _ := ((h.append h').sublist (List.sublist_append_left _ _)).move (.next _)

/-- The root holds the items, up to the token at which it stops. -/
theorem program_sound {c : ParseSettings} {stream : List Token} {s : ParseState}
    (h : Sound c stream s) :
    program.Post c s (fun _ s' => Sound c stream s') fun _ => True := by
  have hrow : (spanRows c stream).Row s [] s := h.row
  apply (program_row hrow).imp
  rintro _ _ ⟨bs, s1, h1, -, rfl, rfl⟩
  replace h1 : Row c stream s bs s1 := Ingredient.nodes_map_node bs ▸ h1
  apply h1.sound.grow
  exact h1.fits (h1.opens_first h1.passed.2) (fun b hb => (h1.le_front hb).2)
    h1.sound.front_bounded rfl

end Parser

end StagedCompiler
