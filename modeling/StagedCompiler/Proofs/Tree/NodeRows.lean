import StagedCompiler.Proofs.Tree.Assembly
import StagedCompiler.Proofs.Tree.Values

/-!
Values and nodes in a row. A reader takes tokens that bear a value and makes
nodes, one after the other, and what it makes of them takes their place. `Rows`
says what a judgement on such rows has to obey, step by step; that the readers
of a unit obey it is then shown once, for all judgements.
-/

namespace StagedCompiler

theorem Interner.resolve_intern (t : Interner) (text : String) (sym : Symbol) :
    (t.intern text).2.resolve sym = t.resolve sym ∨ (t.intern text).2.resolve sym = text := by
  unfold intern
  split
  · exact .inl rfl
  · simp only [resolve, resolve?, append, Array.getElem?_push]
    split
    · exact .inr rfl
    · exact .inl rfl

theorem Interner.ofName?_intern_missingName (t : Interner) :
    PrimType.ofName? ((t.intern Parser.missingName).2.resolve (t.intern Parser.missingName).1) =
      none := by
  have htext : (t.intern Parser.missingName).2.resolve (t.intern Parser.missingName).1 =
      Parser.missingName := by
    unfold intern
    split
    · next sym hsym => simp [resolve, resolve?, (t.index_iff _ _).mp hsym]
    · simp [resolve, resolve?, append]
  rw [htext]
  exact PrimType.ofName?_missingName

theorem Span.to_self (a : Span) : a.to a = a := by
  simp [Span.to]

theorem ParseState.Moved.next (s : ParseState) : s.Moved s.next := by
  refine ⟨s.next_arena, ?_, fun sym => .inl (by rw [s.next_names])⟩
  rw [s.next_rest]
  exact List.tail_suffix _

theorem ParseState.Moved.report (s : ParseState) (d : Diagnostic) : s.Moved (s.report d) :=
  ⟨rfl, List.suffix_refl _, fun _ => .inl rfl⟩

theorem ParseState.Moved.skip (s : ParseState) (n : Nat) : s.Moved (s.skip n) :=
  ⟨rfl, List.drop_suffix _ _, fun _ => .inl rfl⟩

/-- What nodes are made of: tokens that bear a value, and nodes. -/
inductive Ingredient where
  | word (kind : TokenKind)
  | node (b : Built)

namespace Ingredient

def part? (names : Interner) : Ingredient → Option (Value ⊕ NodeId)
  | word kind => (kind.value? names).map .inl
  | node b => some (.inr b.id)

def node? : Ingredient → Option Built
  | word _ => none
  | node b => some b

def nodes (xs : List Ingredient) : List Built :=
  xs.filterMap node?

section

variable {xs ys : List Ingredient} {b : Built}

@[simp]
theorem nodes_append : nodes (xs ++ ys) = nodes xs ++ nodes ys :=
  List.filterMap_append

@[simp]
theorem nodes_nil : nodes [] = [] :=
  rfl

@[simp]
theorem nodes_node : nodes (.node b :: xs) = b :: nodes xs :=
  rfl

@[simp]
theorem nodes_word (kind : TokenKind) : nodes (.word kind :: xs) = nodes xs :=
  rfl

@[simp]
theorem nodes_map_node (bs : List Built) : nodes (bs.map node) = bs := by
  rw [nodes, List.filterMap_map]
  exact List.filterMap_some

@[simp]
theorem nodes_map_word (kinds : List TokenKind) : nodes (kinds.map word) = [] := by
  rw [nodes, List.filterMap_map]
  exact List.filterMap_none _

theorem parts_map_node (names : Interner) (bs : List Built) :
    (bs.map node).filterMap (part? names) = (bs.map (·.id)).map .inr := by
  rw [List.filterMap_map, List.map_map, ← List.filterMap_eq_map]
  rfl

end

end Ingredient

open Ingredient (nodes)

/-- What a token adds to a row when it is taken. -/
def TokenKind.bearing : TokenKind → List Ingredient
  | .punct _ | .eof => []
  | .keyword word => word.truth?.toList.map fun _ => .word (.keyword word)
  | kind => [.word kind]

@[simp]
theorem TokenKind.nodes_bearing (kind : TokenKind) : nodes kind.bearing = [] := by
  cases kind with
  | keyword word =>
    cases htruth : word.truth? <;> simp [bearing, htruth]
  | _ => rfl

/-- A node of the given kind can be made of the ingredients `xs`. -/
structure Made (mode : Mode) (tokens : List Token) (names : Interner) (xs : List Ingredient)
    (kind : NodeKind Symbol NodeId) : Prop where
  parts : xs.filterMap (·.part? names) = kind.parts names
  sorted : kind.WellSorted fun P id => ∃ b ∈ nodes xs, b.id = id ∧ P b.node.kind = true
  valued : kind.Valued (FromTokens tokens) names.resolve
  target : mode = .strict →
    kind.TargetsPlace fun P id => ∃ b ∈ nodes xs, b.id = id ∧ P b.node.kind = true
  floating : kind.Floating fun v => ∃ t ∈ tokens, t.kind = .float v

theorem Made.formed {mode : Mode} {tokens : List Token} {names : Interner} {xs : List Ingredient}
    {kind : NodeKind Symbol NodeId} (h : Made mode tokens names xs kind) :
    Formed mode tokens names (nodes xs) kind where
  children := by
    rw [← kind.children_of_parts names, ← h.parts, nodes, List.filterMap_filterMap,
      List.map_filterMap]
    congr 1
    funext x
    cases x with
    | word kind =>
      cases hvalue : kind.value? names <;> simp [Ingredient.node?, Ingredient.part?, hvalue]
    | node b => rfl
  sorted := h.sorted
  valued := h.valued
  target := h.target
  floating := h.floating

namespace Parser

/-! ### Rows -/

/-- A judgement on what was taken and made, one after the other, on the way from
one state to another. A range `Closes` a row if a node around the row may end
where the range does. -/
structure Rows (c : ParseSettings) (tokens : List Token) where
  Row : ParseState → List Ingredient → ParseState → Prop
  Closes : ParseState → List Ingredient → Span → ParseState → Prop
  rest {s xs s'} : Row s xs s' → s'.rest ⊆ tokens
  empty {s xs s'} : Row s xs s' → Row s' [] s'
  append {s xs s' ys s''} : Row s xs s' → Row s' ys s'' → Row s (xs ++ ys) s''
  row {s xs close s'} : Closes s xs close s' → Row s xs s'
  /-- The front token closes a row when it is taken. -/
  take {s xs s'} : Row s xs s' →
    Closes s (xs ++ (front c s').kind.bearing) (front c s').span s'.next
  /-- In lenient mode tokens are passed over, -/
  move {s xs s' s''} : Row s xs s' → c.mode = .lenient → s'.Moved s'' → Row s xs s''
  /-- and the front token may close a row where it stands, with something made
  up for what is missing. -/
  leave {s xs s' s''} (missing : List TokenKind) : Row s xs s' → c.mode = .lenient →
    s'.Moved s'' → s''.rest = s'.rest →
      Closes s (xs ++ missing.map .word) (front c s').span s''
  /-- A row is also closed by the node it ends with. -/
  last {s xs b s'} : Row s (xs ++ [.node b]) s' → Closes s (xs ++ [.node b]) b.span s'
  /-- A node from the token at which the row started. -/
  first {s xs close s' kind} : Closes s xs close s' → Made c.mode tokens s'.names xs kind →
    Row s [.node ⟨s'.arena.size, kind, (front c s).span.to close⟩]
      (s'.grow ⟨kind, (front c s).span.to close⟩)
  /-- A node from the start of the first node of the row. -/
  base {s b xs close s' kind} : Closes s (.node b :: xs) close s' →
    Made c.mode tokens s'.names (.node b :: xs) kind →
      Row s [.node ⟨s'.arena.size, kind, b.span.to close⟩] (s'.grow ⟨kind, b.span.to close⟩)
  /-- A statement that a block drops leaves the row as it was. -/
  drop {s xs s' b s'' depth} : Row s xs s' → Row s' [.node b] s'' →
    Drops (stmt depth (block depth) (conditional depth)) c s' b s''.next → Row s xs s''.next

namespace Rows

variable {c : ParseSettings} {tokens : List Token}

/-- A node of the sort `P` has taken the place of all that was made since `s`. -/
def One (r : Rows c tokens) (P : NodeKind Symbol NodeId → Bool) (s : ParseState) (b : Built)
    (s' : ParseState) : Prop :=
  r.Row s [.node b] s' ∧ P b.node.kind = true

/-- The nodes with these numbers, all of the sort `P`, form the row since `s`. -/
def Several (r : Rows c tokens) (P : NodeKind Symbol NodeId → Bool) (s : ParseState)
    (ids : List NodeId) (s' : ParseState) : Prop :=
  ∃ bs : List Built,
    r.Row s (bs.map .node) s' ∧ bs.map (·.id) = ids ∧ ∀ b ∈ bs, P b.node.kind = true

/-- The row got a part for each of the values. -/
def Each {α : Type} (r : Rows c tokens) (S : α → List Ingredient → Prop) (s : ParseState)
    (xs : List Ingredient) (as : List α) (s' : ParseState) : Prop :=
  ∃ new, r.Row s (xs ++ new.flatten) s' ∧ List.Forall₂ S as new

/-- A reader of nodes of one sort, each a row of its own. -/
def Reads (r : Rows c tokens) (P : NodeKind Symbol NodeId → Bool) (p : Parser Built) : Prop :=
  ∀ s, r.Row s [] s → p.Post c s (r.One P s) fun _ => True

/-- A reader that adds nothing to a row. -/
def Passes {α : Type} (r : Rows c tokens) (p : Parser α) : Prop :=
  ∀ s xs s', r.Row s xs s' → p.Post c s' (fun _ s'' => r.Row s xs s'') fun _ => True

end Rows

section

variable {α β : Type} {c : ParseSettings} {tokens : List Token} {r : Rows c tokens}
  {s s' : ParseState} {xs : List Ingredient} {P P' : NodeKind Symbol NodeId → Bool} {close : Span}
  {kind : NodeKind Symbol NodeId} {Q : β → ParseState → Prop} {k : TokenKind}

/-! ### Sequencing -/

/-- What follows a reader of nodes: its node joins the row. -/
theorem Rows.Reads.then {p : Parser Built} {f : Built → Parser β} (hp : r.Reads P p)
    (h : r.Row s xs s')
    (hf : ∀ b s'', r.Row s (xs ++ [.node b]) s'' → P b.node.kind = true →
      (f b).Post c s'' Q fun _ => True) :
    (p >>= f).Post c s' Q fun _ => True := by
  rw [post_bind]
  apply (hp s' (r.empty h)).imp
  intro b s'' hb
  exact hf b s'' (r.append h hb.1) hb.2

theorem Rows.Reads.imp {p : Parser Built} (hp : r.Reads P p)
    (h : ∀ kind, P kind = true → P' kind = true) : r.Reads P' p := by
  intro s hs
  apply (hp s hs).imp
  intro b s' hb
  exact ⟨hb.1, h _ hb.2⟩

theorem Rows.Passes.then {p : Parser α} {f : α → Parser β} (hp : r.Passes p)
    (h : r.Row s xs s')
    (hf : ∀ a s'', r.Row s xs s'' → (f a).Post c s'' Q fun _ => True) :
    (p >>= f).Post c s' Q fun _ => True := by
  rw [post_bind]
  apply (hp s xs s' h).imp
  exact hf

theorem Rows.taken (h : r.Row s xs s') (hk : (front c s').kind = k) :
    r.Closes s (xs ++ k.bearing) (front c s').span s'.next := by
  rw [← hk]
  exact r.take h

/-- A token without a value adds nothing. -/
theorem Rows.skip (h : r.Row s xs s') (hk : (front c s').kind.bearing = []) :
    r.Closes s xs (front c s').span s'.next := by
  have htaken := r.take h
  rw [hk, List.append_nil] at htaken
  exact htaken

theorem advance_row {f : Unit → Parser β} (h : r.Row s xs s')
    (hk : (front c s').kind.bearing = [])
    (hf : ∀ s'', r.Row s xs s'' → (f ()).Post c s'' Q fun _ => True) :
    (advance >>= f).Post c s' Q fun _ => True := by
  rw [post_bind, post_advance]
  exact hf _ (r.row (Rows.skip h hk))

theorem passes_isAt (k : TokenKind) : r.Passes (isAt k) :=
  fun _ _ _ h => h

theorem passes_eat (hk : k.bearing = []) : r.Passes (eat k) := by
  intro s xs s' h
  rw [post_eat]
  split
  · next hfront => exact r.row (Rows.skip h (by rw [hfront, hk]))
  · exact h

/-- A row stays as it is where a fault is reported. -/
theorem Rows.reported (h : r.Row s xs s') (hmode : c.mode = .lenient) (d : Diagnostic) :
    r.Row s xs (s'.report d) :=
  r.move h hmode (.report s' d)

theorem expect_closes (hk : k.bearing = []) {f : Span → Parser β} (h : r.Row s xs s')
    (hf : ∀ close s'', r.Closes s xs close s'' → (f close).Post c s'' Q fun _ => True) :
    (expect k >>= f).Post c s' Q fun _ => True := by
  rw [post_bind, post_expect]
  split
  · next hfront => exact hf _ _ (Rows.skip h (by rw [hfront, hk]))
  · rw [post_fault]
    refine ⟨fun _ => trivial, fun hmode => hf _ _ ?_⟩
    rw [← List.append_nil xs]
    exact r.leave [] h hmode (.report s' _) rfl

theorem passes_expect (hk : k.bearing = []) : r.Passes (expect k) := by
  intro s xs s' h
  rw [← bind_pure (expect k)]
  apply expect_closes hk h
  exact fun _ _ h' => r.row h'

/-- A reader that starts with a certain token. -/
theorem expect_first (hk : k.bearing = []) {f : Span → Parser β} (h : r.Row s [] s)
    (hf : ∀ s', r.Row s [] s' → (f (front c s).span).Post c s' Q fun _ => True) :
    (expect k >>= f).Post c s Q fun _ => True := by
  rw [post_bind, post_expect]
  split
  · next hfront => exact hf _ (r.row (Rows.skip h (by rw [hfront, hk])))
  · rw [post_fault]
    exact ⟨fun _ => trivial, fun hmode => hf _ (Rows.reported h hmode _)⟩

/-- A name joins the row, be it a token or made up. -/
theorem expectIdent_closes {f : Symbol × Span → Parser β} (h : r.Row s xs s')
    (hf : ∀ x s'', r.Closes s (xs ++ [.word (.ident x.1)]) x.2 s'' →
      (f x).Post c s'' Q fun _ => True) :
    (expectIdent >>= f).Post c s' Q fun _ => True := by
  rw [post_bind, post_expectIdent]
  constructor
  · intro sym hsym
    exact hf (sym, _) _ (Rows.taken h hsym)
  · intro _
    rw [post_fault]
    refine ⟨fun _ => trivial, fun hmode => ?_⟩
    rw [post_intern]
    refine hf (_, _) _ (r.leave [.ident _] h hmode ?_ rfl)
    exact ⟨rfl, List.suffix_refl _, s'.names.resolve_intern missingName⟩

theorem build_first (h : r.Closes s xs close s') (hmade : Made c.mode tokens s'.names xs kind)
    (hP : P kind = true) :
    (build kind ((front c s).span.to close)).Post c s' (r.One P s) fun _ => True := by
  rw [post_build]
  exact ⟨fun _ _ => trivial, fun _ => ⟨r.first h hmade, hP⟩⟩

theorem build_base {b : Built} (h : r.Closes s (.node b :: xs) close s')
    (hmade : Made c.mode tokens s'.names (.node b :: xs) kind) (hP : P kind = true) :
    (build kind (b.span.to close)).Post c s' (r.One P s) fun _ => True := by
  rw [post_build]
  exact ⟨fun _ _ => trivial, fun _ => ⟨r.base h hmade, hP⟩⟩

/-- A node of one token. -/
theorem build_leaf (h : r.Closes s xs (front c s).span s')
    (hmade : Made c.mode tokens s'.names xs kind) (hP : P kind = true) :
    (build kind (front c s).span).Post c s' (r.One P s) fun _ => True := by
  have hbuild := build_first h hmade hP
  rw [Span.to_self] at hbuild
  exact hbuild

/-! ### Lists -/

theorem Rows.Several.push {b : Built} {bs : List Built} {done : Array NodeId}
    (h : r.Row s (bs.map .node ++ [.node b]) s') (hids : bs.map (·.id) = done.toList)
    (hsorts : ∀ b ∈ bs, P b.node.kind = true) (hb : P b.node.kind = true) :
    r.Row s ((bs ++ [b]).map .node) s' ∧ (bs ++ [b]).map (·.id) = (done.push b.id).toList ∧
      ∀ b' ∈ bs ++ [b], P b'.node.kind = true := by
  refine ⟨?_, ?_, ?_⟩
  · rw [List.map_append]
    exact h
  · rw [Array.toList_push, List.map_append, hids]
    rfl
  · intro b' hb'
    rcases List.mem_append.mp hb' with hb' | hb'
    · exact hsorts b' hb'
    · rw [List.mem_singleton.mp hb']
      exact hb

/-- Each round puts the parts of one value more into the row. -/
theorem itemsUntil_row {S : α → List Ingredient → Prop} {close : TokenKind} {item : Parser α}
    (hitem : ∀ s, r.Row s [] s →
      item.Post c s (fun a s' => ∃ ys, r.Row s ys s' ∧ S a ys) fun _ => True)
    (fuel : Nat) (done : Array α) (new : List (List Ingredient))
    (h : r.Row s (xs ++ new.flatten) s') (hdone : List.Forall₂ S done.toList new) :
    (itemsUntil close item fuel done).Post c s' (r.Each S s xs) fun _ => True := by
  induction fuel generalizing done new s' with
  | zero => exact ⟨new, h, hdone⟩
  | succ fuel ih =>
    unfold itemsUntil
    rw [post_bind, post_isAt, post_bind, post_isAt]
    split
    · exact ⟨new, h, hdone⟩
    rw [post_bind]
    apply (hitem s' (r.empty h)).imp
    rintro x s1 ⟨ys, hys, hx⟩
    have h1 : r.Row s (xs ++ (new ++ [ys]).flatten) s1 := by
      have hboth := r.append h hys
      rw [List.append_assoc] at hboth
      rw [List.flatten_append, List.flatten_singleton]
      exact hboth
    have hpushed : List.Forall₂ S (done.push x).toList (new ++ [ys]) := by
      rw [Array.toList_push]
      exact List.rel_append hdone (.cons hx .nil)
    apply (passes_eat rfl).then h1
    intro more s2 h2
    split
    · exact ih _ _ h2 hpushed
    · exact ⟨_, h2, hpushed⟩

theorem commaList_row {S : α → List Ingredient → Prop} {close : TokenKind} {item : Parser α}
    (hitem : ∀ s, r.Row s [] s →
      item.Post c s (fun a s' => ∃ ys, r.Row s ys s' ∧ S a ys) fun _ => True)
    (h : r.Row s xs s') : (commaList close item).Post c s' (r.Each S s xs) fun _ => True := by
  unfold commaList
  rw [post_bind, post_rounds]
  apply itemsUntil_row hitem _ _ [] _ .nil
  rw [List.flatten_nil, List.append_nil]
  exact h

/-- Where the values are the nodes. -/
theorem commaList_nodes {close : TokenKind} {item : Parser Built} (hitem : r.Reads P item)
    (h : r.Row s xs s') :
    (commaList close item).Post c s'
      (fun new s'' => r.Row s (xs ++ new.map .node) s'' ∧ ∀ b ∈ new, P b.node.kind = true)
      fun _ => True := by
  have hnode (s : ParseState) (hs : r.Row s [] s) :
      item.Post c s (fun b s' => ∃ ys, r.Row s ys s' ∧ (ys = [.node b] ∧ P b.node.kind = true))
        fun _ => True := by
    apply (hitem s hs).imp
    intro b s' hb
    exact ⟨_, hb.1, rfl, hb.2⟩
  apply (commaList_row hnode h).imp
  rintro bs s'' ⟨new, hnew, hsame⟩
  have hlists : new.flatten = bs.map .node ∧ ∀ b ∈ bs, P b.node.kind = true := by
    clear hnew
    induction hsame with
    | nil => exact ⟨rfl, List.forall_mem_nil _⟩
    | cons hb _ ih =>
      rw [hb.1, List.flatten_cons, ih.1]
      exact ⟨rfl, List.forall_mem_cons.mpr ⟨hb.2, ih.2⟩⟩
  rw [← hlists.1]
  exact ⟨hnew, hlists.2⟩

theorem after_row (hk : k.bearing = []) {item : Parser Built} (hitem : r.Reads P item)
    (h : r.Row s xs s') :
    (after k item).Post c s'
      (fun o s'' => r.Row s (xs ++ o.toList.map .node) s'' ∧ ∀ b ∈ o, P b.node.kind = true)
      fun _ => True := by
  unfold after
  apply (passes_eat hk).then h
  intro found s1 h1
  split
  · apply hitem.then h1
    intro b s2 h2 hb
    exact ⟨h2, fun _ hmem => Option.some.inj hmem ▸ hb⟩
  · rw [← List.append_nil xs] at h1
    exact ⟨h1, fun b hb => absurd hb (Option.not_mem_none b)⟩

end

end Parser

end StagedCompiler
