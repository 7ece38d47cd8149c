import StagedCompiler.Proofs.Parser.EveryReader
import StagedCompiler.Proofs.Parser.Running

/-!
A reading inside a larger one. A stream that a strict reader accepts may stand
in the middle of a longer stream: nodes were built before, tokens were taken
before, and more tokens follow. `Carries` says that a reader does there what
it does on the stream alone, with every node moved up by the number of nodes
before. The only danger is a look past the last token, so the judgement keeps
account of where a run ends. Inside a body it is one that all readers keep.
-/

namespace StagedCompiler

def Node.shift (k : Nat) (n : Node) : Node :=
  ⟨n.kind.map id (k + ·), n.span⟩

theorem TokenKind.map_literal? {kind : TokenKind} {node : NodeKind Symbol NodeId}
    (h : kind.literal? = some node) (g : NodeId → NodeId) : node.map id g = node := by
  cases TokenKind.isLiteral h <;> rfl

theorem NodeKind.isPlace_map {Name Child Name' Child' : Type} (f : Name → Name')
    (g : Child → Child') (kind : NodeKind Name Child) : (kind.map f g).isPlace = kind.isPlace := by
  cases kind with
  | unary op _ => cases op <;> rfl
  | _ => rfl

theorem ParseState.length_next (s : ParseState) (h : s.rest ≠ []) :
    s.next.rest.length < s.rest.length := by
  have hpos := List.length_pos_iff.mpr h
  rw [s.next_rest, List.length_tail]
  omega

/-- What a run without faults does to a state: it goes on in the tokens, one by
one, and keeps the nodes and the names. -/
structure ParseState.Advanced (s s' : ParseState) : Prop where
  rest : s'.rest <:+ s.rest
  consumed : s'.consumed + s'.rest.length = s.consumed + s.rest.length
  size : s.arena.size ≤ s'.arena.size
  maxChildren : s'.arena.maxChildren = s.arena.maxChildren
  names : s'.names = s.names

namespace ParseState.Advanced

theorem refl (s : ParseState) : s.Advanced s :=
  ⟨List.suffix_refl _, rfl, Nat.le_refl _, rfl, rfl⟩

theorem trans {s s' s'' : ParseState} (h : s.Advanced s') (h' : s'.Advanced s'') :
    s.Advanced s'' where
  rest := h'.rest.trans h.rest
  consumed := h'.consumed.trans h.consumed
  size := Nat.le_trans h.size h'.size
  maxChildren := h'.maxChildren.trans h.maxChildren
  names := h'.names.trans h.names

theorem next (s : ParseState) : s.Advanced s.next where
  rest := by
    rw [s.next_rest]
    exact List.tail_suffix _
  consumed := by
    unfold ParseState.next
    split
    · rfl
    · next hrest =>
      rw [hrest, List.length_cons]
      dsimp only
      omega
  size := Nat.le_of_eq (by rw [s.next_arena])
  maxChildren := by rw [s.next_arena]
  names := s.next_names

theorem grow (s : ParseState) (n : Node) : s.Advanced (s.grow n) where
  rest := List.suffix_refl _
  consumed := rfl
  size := Nat.le_trans (Nat.le_succ _) (Nat.le_of_eq (s.size_grow n).symm)
  maxChildren := rfl
  names := rfl

theorem length_le {s s' : ParseState} (h : s.Advanced s') : s'.rest.length ≤ s.rest.length :=
  h.rest.length_le

end ParseState.Advanced

/-- Tokens that neither continue a path nor end an import. -/
def StartsApart (tokens : List Token) : Prop :=
  ∀ t ∈ tokens.head?,
    t.kind ≠ .punct .colonColon ∧ t.kind ≠ .punct .dot ∧ t.kind ≠ .punct .semicolon

instance (tokens : List Token) : Decidable (StartsApart tokens) :=
  inferInstanceAs (Decidable (∀ t ∈ tokens.head?, _))

namespace Parser

/-- How a stream stands inside a longer one. -/
structure Embedding where
  /-- The settings of the stream alone. -/
  inner : ParseSettings
  /-- The settings of the longer stream. -/
  outer : ParseSettings
  strict : inner.mode = .strict
  count : inner.tokenCount ≤ outer.tokenCount
  /-- The nodes that were built before. -/
  before : Array Node
  /-- How many tokens were taken before. -/
  taken : Nat
  /-- The tokens that follow. -/
  more : List Token
  /-- What was reported before. -/
  reported : Diagnostics
  maxNodes : Nat

namespace Embedding

variable (e : Embedding)

def shift : Nat :=
  e.before.size

/-- The state of the longer stream that a state of the stream alone stands for. -/
def place (s : ParseState) : ParseState where
  rest := s.rest ++ e.more
  consumed := e.taken + s.consumed
  arena := ⟨e.before ++ s.arena.nodes.map (Node.shift e.shift), e.maxNodes, s.arena.maxChildren⟩
  names := s.names
  diagnostics := e.reported

def Room (s : ParseState) : Prop :=
  e.shift + s.arena.size ≤ e.maxNodes

def Quiet : Prop :=
  StartsApart e.more

variable {e} {s : ParseState}

theorem room_of_advanced {s' : ParseState} (h : s.Advanced s') (hroom : e.Room s') : e.Room s :=
  Nat.le_trans (Nat.add_le_add_left h.size _) hroom

theorem front_place (hrest : s.rest ≠ []) : front e.outer (e.place s) = front e.inner s := by
  cases hs : s.rest with
  | nil => exact absurd hs hrest
  | cons t ts =>
    have hplace : (e.place s).rest = t :: (ts ++ e.more) := by simp [place, hs]
    rw [front_of_rest hs, front_of_rest hplace]

theorem place_next (hrest : s.rest ≠ []) : (e.place s).next = e.place s.next := by
  cases hs : s.rest with
  | nil => exact absurd hs hrest
  | cons t ts =>
    unfold ParseState.next
    simp only [place, hs, List.cons_append]
    rfl

theorem size_place : (e.place s).arena.size = e.shift + s.arena.size := by
  simp [place, Arena.size, shift]

theorem place_grow (n : Node) : (e.place s).grow (n.shift e.shift) = e.place (s.grow n) := by
  simp [place, ParseState.grow, Arena.append]

end Embedding

/-- In the longer stream all is the same but the numbers of the nodes. -/
def Embedding.bond (e : Embedding) : Bond ParseState where
  le := ParseState.Advanced
  refl := .refl
  trans := .trans
  place a a' := a' = a
  place_to ha hb := by rw [ha, hb]
  known _ := True
  name _ _ := True
  name_of_known _ := trivial
  name_later _ _ := trivial
  id _ _ i i' := i' = e.shift + i
  id_later _ h := h
  id_sub _ h := h
  level := Eq
  even := True
  level_zero := Bond.level_zero_of_eq
  level_succ := Bond.level_succ_of_eq
  top _ := True
  free := False
  place_self h := h.elim
  name_self h := h.elim
  id_self h := h.elim

section

variable {e : Embedding} {s : ParseState} {k : Part}

theorem Embedding.later {α : Type} {R : ParseState → α → α → Prop} [hR : e.bond.Fact R]
    {s' : ParseState} {a a' : α} (hadv : s.Advanced s') (h : R s a a') : R s' a a' :=
  hR.later hadv h

theorem Embedding.ids_eq {is is' : List NodeId} (h : List.Forall₂ (e.bond.id s k) is is') :
    is' = is.map (e.shift + ·) := by
  induction h with
  | nil => rfl
  | cons hi _ ih => rw [ih, List.map_cons, show _ = _ from hi]

theorem Embedding.id?_eq {i i' : Option NodeId} (h : Option.Rel (e.bond.id s k) i i') :
    i' = i.map (e.shift + ·) := by
  cases h with
  | none => rfl
  | some hi => rw [Option.map_some, show _ = _ from hi]

theorem Embedding.fields_eq {n : Nat} {fs fs' : List (FieldInit Symbol NodeId)}
    (h : List.Forall₂ (e.bond.Field n s) fs fs') :
    fs' = fs.map fun f => ⟨f.name, e.shift + f.value, f.span⟩ := by
  induction h with
  | nil => rfl
  | @cons f f' _ _ hf _ ih =>
    obtain ⟨name, value, span⟩ := f'
    obtain ⟨⟨hname, -⟩, hvalue, hspan⟩ := hf
    cases hname
    cases hvalue
    cases hspan
    rw [ih]
    rfl

/-- Nodes of the longer stream hold the same, moved up. -/
theorem Embedding.kind_of_forms {kind kind' : NodeKind Symbol NodeId}
    (h : e.bond.Forms s k kind kind') : kind' = kind.map id (e.shift + ·) := by
  cases h with
  | literal _ hkind => exact (TokenKind.map_literal? hkind _).symm
  | structLit _ hfields => rw [Embedding.fields_eq hfields]; rfl
  | importPath _ => rw [NodeKind.map, List.map_id]
  | link op hi hj => cases hi; cases hj; cases op <;> rfl
  | array _ hi | ref _ hi | unary _ hi | inner hi | outer hi | fieldAccess hi _ | exprStmt hi
  | param _ _ hi | field _ hi =>
    cases hi
    rfl
  | index hi hj | assign _ hi hj | whileStmt hi hj | forStmt _ hi hj =>
    cases hi
    cases hj
    rfl
  | arrayLit his | block his | struct _ his | program _ his =>
    cases Embedding.ids_eq his
    rfl
  | call hi his =>
    cases hi
    cases Embedding.ids_eq his
    rfl
  | letStmt _ _ hty hinit =>
    cases Embedding.id?_eq hty
    cases Embedding.id?_eq hinit
    rfl
  | returnStmt hvalue =>
    cases Embedding.id?_eq hvalue
    rfl
  | ifStmt hcond hyes hno =>
    cases hcond
    cases hyes
    cases Embedding.id?_eq hno
    rfl
  | function _ _ hparams hret hbody =>
    cases Embedding.ids_eq hparams
    cases Embedding.id?_eq hret
    cases hbody
    rfl
  | prim | named | zero | ident | breakStmt | continueStmt => rfl

end

theorem getLast?_of_suffix {α : Type} {xs ys : List α} {x : α} (h : xs <:+ ys)
    (hx : xs.getLast? = some x) : ys.getLast? = some x := by
  obtain ⟨zs, rfl⟩ := h
  rw [List.getLast?_append, hx]
  rfl

inductive Ending where
  /-- Inside a body: the brace that closes it is still to come. -/
  | body
  /-- With the brace that closes a body. -/
  | closing
  /-- In the path of an import. -/
  | path
  /-- With an import. -/
  | importEnd

namespace Ending

def part : Ending → Ending
  | body | closing => body
  | path | importEnd => path

def Open (m : Ending) (e : Embedding) (s : ParseState) : Prop :=
  match m with
  | body => ∃ t, s.rest.getLast? = some t ∧ t.kind = .punct .rbrace
  | closing => ∀ t, s.rest.getLast? = some t → t.kind = .punct .rbrace
  | path => s.rest ≠ [] ∨ e.Quiet
  | importEnd => True

/-- What a run found to end as it does: a brace that it took, or, for an import,
tokens that tell whether its path goes on. -/
def Found (m : Ending) (e : Embedding) (s s' : ParseState) : Prop :=
  match m with
  | body | path => True
  | closing => ∃ t, t.kind = .punct .rbrace ∧ t :: s'.rest <:+ s.rest
  | importEnd => s.rest ≠ [] ∨ e.Quiet

variable {m : Ending} {e : Embedding} {s s' s'' : ParseState}

theorem Found.before (h : m.Found e s' s'') (hadv : s.Advanced s') : m.Found e s s'' := by
  cases m with
  | body | path => trivial
  | closing =>
    obtain ⟨t, ht, hsuffix⟩ := h
    exact ⟨t, ht, hsuffix.trans hadv.rest⟩
  | importEnd => exact h.imp_left hadv.rest.ne_nil

theorem open_before (hadv : s.Advanced s') (h : m.part.Open e s') : m.part.Open e s := by
  cases m with
  | body | closing =>
    obtain ⟨t, hlast, ht⟩ := h
    exact ⟨t, getLast?_of_suffix hadv.rest hlast, ht⟩
  | path | importEnd => exact h.imp_left hadv.rest.ne_nil

/-- If a run may end where it does, it may have been where it was. -/
theorem open_part (hadv : s.Advanced s') (hfound : m.Found e s s') (h : m.Open e s') :
    m.part.Open e s := by
  cases m with
  | body => exact open_before (m := body) hadv h
  | closing =>
    obtain ⟨t, ht, hsuffix⟩ := hfound
    cases hlast : s'.rest.getLast? with
    | none =>
      rw [List.getLast?_eq_none_iff.mp hlast] at hsuffix
      exact ⟨t, getLast?_of_suffix hsuffix rfl, ht⟩
    | some u => exact ⟨u, getLast?_of_suffix hadv.rest hlast, h u hlast⟩
  | path => exact open_before (m := path) hadv h
  | importEnd => exact hfound

theorem rest_ne_nil_of_open (h : body.Open e s) : s.rest ≠ [] := by
  obtain ⟨t, hlast, -⟩ := h
  intro hnil
  simp [hnil] at hlast

end Ending

theorem run_of_post {α : Type} {p : Parser α} {c : ParseSettings} {s s' : ParseState} {a : α}
    (h : p.Post c s (fun b s1 => (b, s1) = (a, s')) fun _ => False) : p c s = .ok (a, s') := by
  unfold Post at h
  split at h
  · next hrun => rw [hrun, h]
  · exact h.elim

/-- A reader does in the longer stream what it does in the stream alone: from a
state `s` in which no more tokens are left than there were, `p` goes on, and
where it may end, `p'` ends in the place of the same state with a value that is
the same up to `R`. -/
def Carries (e : Embedding) (m : Ending) (α : Type) (s : ParseState)
    (R : ParseState → α → α → Prop) (p p' : Parser α) : Prop :=
  s.rest.length ≤ e.inner.tokenCount →
    p.Post e.inner s
      (fun a s' => s.Advanced s' ∧ m.Found e s s' ∧ ∃ a', R s' a a' ∧
        (m.Open e s' → e.Room s' → p' e.outer (e.place s) = .ok (a', e.place s')))
      fun _ => True

section

variable {α β : Type} {e : Embedding} {m : Ending} {s s' : ParseState}
  {R : ParseState → α → α → Prop} {S : ParseState → β → β → Prop} {p p' : Parser α}
  {q q' : α → Parser β} {a a' : α}

/-! ### Sequencing -/

theorem Carries.bind_post {Q : α → ParseState → Prop} (hp : Carries e m.part α s R p p')
    (hpost : p.Post e.inner s Q fun _ => True)
    (hq : ∀ a a' s1, s.Advanced s1 → R s1 a a' → Q a s1 → Carries e m β s1 S (q a) (q' a')) :
    Carries e m β s S (p >>= q) (p' >>= q') := by
  intro hlen
  rw [post_bind]
  apply (Post.and (hp hlen) hpost).imp
  rintro a s1 ⟨⟨hadv1, -, a', ha', hrun1⟩, ha⟩
  apply (hq a a' s1 hadv1 ha' ha (Nat.le_trans hadv1.length_le hlen)).imp
  rintro b s2 ⟨hadv2, hfound2, b', hb', hrun2⟩
  refine ⟨hadv1.trans hadv2, hfound2.before hadv1, b', hb', fun hopen hroom => ?_⟩
  rw [run_bind, hrun1 (Ending.open_part hadv2 hfound2 hopen) (e.room_of_advanced hadv2 hroom)]
  exact hrun2 hopen hroom

theorem Carries.bind (hp : Carries e m.part α s R p p')
    (hq : ∀ a a' s1, s.Advanced s1 → R s1 a a' → Carries e m β s1 S (q a) (q' a')) :
    Carries e m β s S (p >>= q) (p' >>= q') :=
  hp.bind_post post_true fun a a' s1 hadv ha _ => hq a a' s1 hadv ha

/-- What follows a step whose outcome is known. -/
theorem Carries.step (hin : p e.inner s = .ok (a, s')) (hadv : s.Advanced s')
    (hout : m.part.Open e s' → p' e.outer (e.place s) = .ok (a', e.place s'))
    (hq : Carries e m β s' S (q a) (q' a')) : Carries e m β s S (p >>= q) (p' >>= q') := by
  intro hlen
  unfold Post
  rw [run_bind, hin]
  apply (hq (Nat.le_trans hadv.length_le hlen)).imp
  rintro b s2 ⟨hadv2, hfound2, b', hb', hrun2⟩
  refine ⟨hadv.trans hadv2, hfound2.before hadv, b', hb', fun hopen hroom => ?_⟩
  rw [run_bind, hout (Ending.open_part hadv2 hfound2 hopen)]
  exact hrun2 hopen hroom

theorem carries_fault {fault' : ParseFault} {span : Span} {q : Unit → Parser α} :
    Carries e m α s R (fault fault' span >>= q) p' := by
  intro _
  rw [post_bind, post_fault_strict e.strict]
  trivial

/-! ### Steps -/

theorem carries_pure (ha : R s a a') : Carries e .body α s R (pure a) (pure a') := by
  intro _
  rw [post_pure]
  exact ⟨.refl s, trivial, a', ha, fun _ _ => rfl⟩

variable {k : TokenKind}

theorem run_current (c : ParseSettings) (s : ParseState) : current c s = .ok (front c s, s) :=
  rfl

theorem carries_current {q q' : Token → Parser β}
    (hq : Carries e .body β s S (q (front e.inner s)) (q' (front e.inner s))) :
    Carries e .body β s S (current >>= q) (current >>= q') := by
  refine Carries.step (run_current _ _) (.refl s) (fun hopen => ?_) hq
  rw [run_current, e.front_place (Ending.rest_ne_nil_of_open hopen)]

theorem carries_advance {q q' : Unit → Parser β}
    (hq : Carries e .body β s.next S (q ()) (q' ())) :
    Carries e .body β s S (advance >>= q) (advance >>= q') := by
  refine Carries.step (run_advance _ _) (.next s) (fun hopen => ?_) hq
  have hrest := Ending.rest_ne_nil_of_open (Ending.open_before (.next s) hopen)
  rw [run_advance, e.place_next hrest]

theorem carries_isAt {q q' : Bool → Parser β}
    (hq : Carries e .body β s S (q (decide ((front e.inner s).kind = k)))
      (q' (decide ((front e.inner s).kind = k)))) :
    Carries e .body β s S (isAt k >>= q) (isAt k >>= q') := by
  have hrun (c : ParseSettings) (s : ParseState) :
      isAt k c s = .ok (decide ((front c s).kind = k), s) := rfl
  refine Carries.step (hrun _ _) (.refl s) (fun hopen => ?_) hq
  rw [hrun, e.front_place (Ending.rest_ne_nil_of_open hopen)]

theorem run_eat (c : ParseSettings) (s : ParseState) :
    eat k c s = if (front c s).kind = k then .ok (true, s.next) else .ok (false, s) := by
  split
  · next hk => exact run_of_post (post_eat.mpr (by rw [if_pos hk]))
  · next hk => exact run_of_post (post_eat.mpr (by rw [if_neg hk]))

/-- What follows the attempt to take a token, which must not be there in either
stream where the tokens of the shorter one end. -/
theorem carries_eat_of {q q' : Bool → Parser β}
    (htrue : (front e.inner s).kind = k → Carries e m β s.next S (q true) (q' true))
    (hfalse : Carries e m β s S (q false) (q' false))
    (hend : m.part.Open e s → s.rest = [] →
      (front e.inner s).kind ≠ k ∧ (front e.outer (e.place s)).kind ≠ k) :
    Carries e m β s S (eat k >>= q) (eat k >>= q') := by
  by_cases hfront : (front e.inner s).kind = k
  · refine Carries.step (by rw [run_eat, if_pos hfront]) (.next s) (fun hopen => ?_) (htrue hfront)
    have hrest : s.rest ≠ [] :=
      fun hnil => (hend (Ending.open_before (.next s) hopen) hnil).1 hfront
    rw [run_eat, e.front_place hrest, if_pos hfront, e.place_next hrest]
  · refine Carries.step (by rw [run_eat, if_neg hfront]) (.refl s) (fun hopen => ?_) hfalse
    have hother : (front e.outer (e.place s)).kind ≠ k := by
      by_cases hrest : s.rest = []
      · exact (hend hopen hrest).2
      · rw [e.front_place hrest]
        exact hfront
    rw [run_eat, if_neg hother]

theorem carries_eat {q q' : Bool → Parser β}
    (htrue : (front e.inner s).kind = k → Carries e .body β s.next S (q true) (q' true))
    (hfalse : Carries e .body β s S (q false) (q' false)) :
    Carries e .body β s S (eat k >>= q) (eat k >>= q') :=
  carries_eat_of htrue hfalse fun hopen hrest => absurd hrest (Ending.rest_ne_nil_of_open hopen)

/-- A name is there or the strict reader gives up, so no end is looked past. -/
theorem carries_expectIdent {q q' : Symbol × Span → Parser β}
    (hq : ∀ sym, (front e.inner s).kind = .ident sym →
      Carries e m β s.next S (q (sym, (front e.inner s).span))
        (q' (sym, (front e.inner s).span))) :
    Carries e m β s S (expectIdent >>= q) (expectIdent >>= q') := by
  have hrun {c : ParseSettings} {s : ParseState} {sym : Symbol}
      (h : (front c s).kind = .ident sym) :
      expectIdent c s = .ok ((sym, (front c s).span), s.next) := by
    refine run_of_post (post_expectIdent.mpr ⟨fun sym' h' => ?_, fun hno => absurd h (hno sym)⟩)
    rw [h] at h'
    cases h'
    rfl
  by_cases hfront : ∃ sym, (front e.inner s).kind = .ident sym
  · obtain ⟨sym, hfront⟩ := hfront
    have hrest : s.rest ≠ [] := rest_ne_nil (by rw [hfront]; nofun)
    refine Carries.step (hrun hfront) (.next s) (fun _ => ?_) (hq sym hfront)
    have hplace := e.front_place hrest
    rw [hrun (by rw [hplace]; exact hfront), hplace, e.place_next hrest]
  · intro _
    rw [post_bind, post_expectIdent]
    refine ⟨fun sym h => absurd ⟨sym, h⟩ hfront, fun _ => ?_⟩
    rw [post_fault_strict e.strict]
    trivial

/-- Both streams allow more rounds than there are tokens left. -/
theorem carries_rounds {q q' : Nat → Parser β}
    (hq : ∀ fuel fuel', s.rest.length < fuel → s.rest.length < fuel' →
      Carries e m β s S (q fuel) (q' fuel')) :
    Carries e m β s S (rounds >>= q) (rounds >>= q') := by
  intro hlen
  have hrun (c : ParseSettings) (s : ParseState) : rounds c s = .ok (c.tokenCount + 1, s) := rfl
  have hcount := e.count
  exact Carries.step (hrun _ _) (.refl s) (fun _ => hrun _ _) (hq _ _ (by omega) (by omega)) hlen

theorem carries_consumed {q q' : Nat → Parser β}
    (hq : Carries e m β s S (q s.consumed) (q' (e.taken + s.consumed))) :
    Carries e m β s S (consumed >>= q) (consumed >>= q') :=
  have hrun (c : ParseSettings) (s : ParseState) : consumed c s = .ok (s.consumed, s) := rfl
  Carries.step (hrun _ _) (.refl s) (fun _ => hrun _ _) hq

section

variable {k : Part} {kind kind' : NodeKind Symbol NodeId} {span span' : Span}

/-- A node that fits alone fits in its place if there is room. -/
theorem build_place (hkind : e.bond.Forms s k kind kind') (hspan : span' = span)
    (hfits : s.arena.refusal? kind = none) :
    ∃ b', e.bond.Node k (s.grow ⟨kind, span⟩) ⟨s.arena.size, kind, span⟩ b' ∧
      (e.Room (s.grow ⟨kind, span⟩) →
        build kind' span' e.outer (e.place s) = .ok (b', e.place (s.grow ⟨kind, span⟩))) := by
  have hkind' := Embedding.kind_of_forms hkind
  refine ⟨⟨e.shift + s.arena.size, kind', span'⟩, ⟨rfl, hspan, ?_⟩, fun hroom => ?_⟩
  · rw [hkind']
    exact (NodeKind.isPlace_map _ _ _).symm
  · obtain ⟨hchildren, -⟩ := (s.arena.refusal?_eq_none kind).mp hfits
    have hfits' : (e.place s).arena.refusal? kind' = none := by
      rw [Arena.refusal?_eq_none, e.size_place, hkind', NodeKind.children_map, List.length_map]
      refine ⟨hchildren, ?_⟩
      unfold Embedding.Room at hroom
      rw [s.size_grow] at hroom
      exact hroom
    refine run_of_post (post_build.mpr ⟨fun x hx => ?_, fun _ => ?_⟩)
    · rw [hfits'] at hx
      cases hx
    · rw [hkind', hspan, e.size_place, ← e.place_grow]
      rfl

theorem carries_build (hkind : e.bond.Forms s k kind kind') (hspan : span' = span) :
    Carries e .body Built s (e.bond.Node k) (build kind span) (build kind' span') := by
  intro _
  rw [post_build]
  refine ⟨fun _ _ => trivial, fun hfits => ?_⟩
  obtain ⟨b', hb', hrun⟩ := build_place hkind hspan hfits
  exact ⟨.grow s _, trivial, b', hb', fun _ hroom => hrun hroom⟩

end

/-- The steps do the same in both streams inside a body. -/
theorem Embedding.steps (e : Embedding) : e.bond.Steps (Carries e .body) where
  pure h := carries_pure h
  bind hp hf := hp.bind hf
  current hf := carries_current (hf _ _ _ trivial rfl)
  resolve sym hf :=
    have hrun (c : ParseSettings) (s : ParseState) :
        resolve sym c s = .ok (s.names.resolve sym, s) := rfl
    Carries.step (hrun _ _) (.refl _) (fun _ => hrun _ _) (hf _)
  advance := by
    rw [← bind_pure advance]
    exact carries_advance (carries_pure rfl)
  fault f _ _ _ := by
    rw [← bind_pure (fault f _)]
    exact carries_fault
  missing _ _ _ _ := carries_fault
  build hkind hspan := carries_build hkind hspan
  tooDeep _ _ := post_tooDeep.mpr trivial

/-- The brace that closes a body may be the last token. -/
theorem expect_rbrace_carries :
    Carries e .closing Span s e.bond.Place (expect (.punct .rbrace)) (expect (.punct .rbrace)) := by
  intro _
  rw [post_expect]
  split
  · next hfront =>
    have hrest : s.rest ≠ [] := rest_ne_nil (by rw [hfront]; nofun)
    refine ⟨.next s, ⟨_, hfront, ?_⟩, _, rfl, fun _ _ => ?_⟩
    · exact ⟨[], (rest_eq_front (by rw [hfront]; nofun)).symm⟩
    · have hplace := e.front_place hrest
      refine run_of_post (post_expect.mpr ?_)
      rw [hplace, if_pos hfront, e.place_next hrest]
  · rw [post_fault_strict e.strict]
    trivial

/-- A node around a body that was just closed. -/
theorem Carries.build {k : Part} {kind kind' : α → NodeKind Symbol NodeId} {span span' : α → Span}
    (hp : Carries e .closing α s R p p')
    (hkind : ∀ a a' s', s.Advanced s' → R s' a a' →
      e.bond.Forms s' k (kind a) (kind' a') ∧ span' a' = span a) :
    Carries e .closing Built s (e.bond.Node k) (p >>= fun a => Parser.build (kind a) (span a))
      (p' >>= fun a => Parser.build (kind' a) (span' a)) := by
  intro hlen
  rw [post_bind]
  apply (hp hlen).imp
  rintro a s1 ⟨hadv, hfound, a', ha', hrun⟩
  obtain ⟨hform, hspan⟩ := hkind a a' s1 hadv ha'
  rw [post_build]
  refine ⟨fun _ _ => trivial, fun hfits => ?_⟩
  obtain ⟨b', hb', hbuild⟩ := build_place hform hspan hfits
  refine ⟨hadv.trans (.grow s1 _), hfound, b', hb', fun hopen hroom => ?_⟩
  rw [run_bind, hrun hopen (e.room_of_advanced (.grow s1 _) hroom)]
  exact hbuild hroom

end

end Parser

end StagedCompiler
