import StagedCompiler.Proofs.Parser.Running

/-!
How many nodes readers build and when they give up. Recovery makes nodes out
of nothing, so nodes are paid for with credits: every token taken brings some,
every node built costs one. A reader that has enough credits for what it
fabricates is bounded by the tokens it takes, and with limits in proportion to
the tokens it never gives up.
-/

namespace StagedCompiler

namespace Parser

/-- A reading that starts with `k` credits and ends with `k'`, where a token
brings `w` of them. -/
structure Spends (w k k' : Nat) (s s' : ParseState) : Prop where
  total : s'.consumed + s'.rest.length = s.consumed + s.rest.length
  forward : s'.rest.length ≤ s.rest.length
  nodes : s'.arena.size + w * s'.rest.length + k' ≤ s.arena.size + w * s.rest.length + k
  maxNodes : s'.arena.maxNodes = s.arena.maxNodes
  maxChildren : s'.arena.maxChildren = s.arena.maxChildren

/-- Why a reader with `k` credits gives up: the mode is strict, or one of the
limits is small compared to the tokens still there. -/
def Tight (c : ParseSettings) (w k depth : Nat) (s : ParseState) : Prop :=
  c.mode = .strict ∨ s.arena.maxNodes < s.arena.size + w * s.rest.length + k ∨
    s.arena.maxChildren < c.tokenCount + 3 ∨ depth ≤ 2 * s.rest.length

/-- A reader that starts with `k` credits and ends with `k'`, and gives up for
its nesting only if `depth` is at most twice the number of tokens. -/
def Costs {α : Type} (c : ParseSettings) (s : ParseState) (w k : Nat) (p : Parser α)
    (k' depth : Nat) : Prop :=
  p.Post c s (fun _ s' => Spends w k k' s s') (fun _ => Tight c w k depth s)

/-- A reader that costs `m` credits wherever it starts. -/
def Bounded {α : Type} (c : ParseSettings) (w m depth : Nat) (p : Parser α) : Prop :=
  ∀ s k k' h, k' + m ≤ k → h ≤ depth → Costs c s w k p k' h

section

variable {α β : Type} {c : ParseSettings} {s s1 s2 : ParseState} {w k k1 k2 k' h d m : Nat}
  {p : Parser α} {f : α → Parser β}

theorem Spends.same (hrest : s1.rest = s.rest) (hconsumed : s1.consumed = s.consumed)
    (harena : s1.arena = s.arena) (hk : k' ≤ k) : Spends w k k' s s1 := by
  refine ⟨?_, ?_, ?_, ?_, ?_⟩ <;> simp only [hrest, hconsumed, harena] <;> omega

theorem Spends.trans (h1 : Spends w k k1 s s1) (h2 : Spends w k1 k2 s1 s2) :
    Spends w k k2 s s2 where
  total := h2.total.trans h1.total
  forward := Nat.le_trans h2.forward h1.forward
  nodes := Nat.le_trans h2.nodes h1.nodes
  maxNodes := h2.maxNodes.trans h1.maxNodes
  maxChildren := h2.maxChildren.trans h1.maxChildren

theorem Spends.weaken (h1 : Spends w k k1 s s1) (hk : k' ≤ k1) : Spends w k k' s s1 := by
  have hnodes := h1.nodes
  exact ⟨h1.total, h1.forward, by omega, h1.maxNodes, h1.maxChildren⟩

theorem length_next (hrest : s.rest ≠ []) : s.next.rest.length + 1 = s.rest.length := by
  have hpos : 0 < s.rest.length := List.length_pos_iff.mpr hrest
  simp only [ParseState.next_rest, List.length_tail]
  omega

theorem Spends.next (hrest : s.rest ≠ []) : Spends w k (k + w) s s.next := by
  have htail := length_next hrest
  have hmul : w * s.rest.length = w * s.next.rest.length + w := by
    rw [← htail, Nat.mul_succ]
  have hconsumed := s.next_consumed hrest
  refine ⟨by omega, by omega, ?_, by simp, by simp⟩
  rw [ParseState.next_arena]
  omega

theorem Spends.next_any (hk : k' ≤ k) : Spends w k k' s s.next := by
  by_cases hrest : s.rest = []
  · rw [show s.next = s by simp [ParseState.next, hrest]]
    exact .same rfl rfl rfl hk
  · exact (Spends.next hrest).weaken (by omega)

/-- Reading ahead cannot make limits tighter than they were. -/
theorem Tight.before (hs : Spends w k k1 s s1)
    (hdepth : d ≤ 2 * s1.rest.length → h ≤ 2 * s.rest.length) (ht : Tight c w k1 d s1) :
    Tight c w k h s := by
  obtain ⟨-, -, hnodes, hmaxNodes, hmaxChildren⟩ := hs
  rcases ht with hstrict | htoomany | hwide | hdeep
  · exact .inl hstrict
  · exact .inr (.inl (by omega))
  · exact .inr (.inr (.inl (by omega)))
  · exact .inr (.inr (.inr (hdepth hdeep)))

/-! ### Sequencing -/

theorem Costs.weaken (hp : Costs c s w k p k1 d) (hk : k' ≤ k1) (hh : h ≤ d) :
    Costs c s w k p k' h := by
  refine hp.mono (fun _ s' hs => hs.weaken hk) fun _ ht => ?_
  exact ht.before (.same rfl rfl rfl (Nat.le_refl k)) (Nat.le_trans hh)

/-- One reader behind another, where more is known of what the first gives. -/
theorem Costs.bind_post {R : α → Prop} (k1 : Nat)
    (hp : p.Post c s (fun a s1 => Spends w k k1 s s1 ∧ R a) (fun _ => Tight c w k h s))
    (hf : ∀ a s1, Spends w k k1 s s1 → R a → Costs c s1 w k1 (f a) k2 h) :
    Costs c s w k (p >>= f) k2 h := by
  unfold Costs
  rw [post_bind]
  refine hp.imp fun a s1 ⟨hs, ha⟩ => ?_
  refine (hf a s1 hs ha).mono (fun _ s2 hs2 => hs.trans hs2) fun _ ht => ?_
  have hforward := hs.forward
  exact ht.before hs fun hd => by omega

theorem Costs.bind (k1 : Nat) (hp : Costs c s w k p k1 h)
    (hf : ∀ a s1, Spends w k k1 s s1 → Costs c s1 w k1 (f a) k2 h) :
    Costs c s w k (p >>= f) k2 h := by
  have hpost : p.Post c s (fun a s1 => Spends w k k1 s s1 ∧ True) (fun _ => Tight c w k h s) :=
    hp.imp fun _ _ hs => ⟨hs, trivial⟩
  exact Costs.bind_post k1 hpost fun a s1 hs _ => hf a s1 hs

/-- A token taken brings its credits and makes room for two more levels. -/
theorem Costs.from_next (hfront : (front c s).kind ≠ .eof)
    (hp : Costs c s.next w (k + w) p k2 (h - 2)) :
    p.Post c s.next (fun _ s' => Spends w k k2 s s') (fun _ => Tight c w k h s) := by
  have hrest := rest_ne_nil hfront
  have htail := length_next hrest
  refine hp.mono (fun _ s2 hs2 => (Spends.next hrest).trans hs2) fun _ ht => ?_
  exact ht.before (.next hrest) fun hd => by omega

theorem Costs.take {f : Unit → Parser β} (hfront : (front c s).kind ≠ .eof)
    (hf : Costs c s.next w (k + w) (f ()) k2 (h - 2)) :
    Costs c s w k (advance >>= f) k2 h := by
  unfold Costs
  rw [post_bind, post_advance]
  exact hf.from_next hfront

/-- A reader that takes a token makes room for what follows it, too. -/
theorem Costs.bind_taking {k1 : Nat}
    (hp : p.Post c s (fun _ s1 => Spends w k k1 s s1 ∧ s1.rest.length < s.rest.length)
      (fun _ => Tight c w k h s))
    (hf : ∀ a s1, Costs c s1 w k1 (f a) k2 (h - 2)) : Costs c s w k (p >>= f) k2 h := by
  unfold Costs
  rw [post_bind]
  refine hp.imp fun a s1 ⟨hs, htaken⟩ => ?_
  refine (hf a s1).mono (fun _ s2 hs2 => hs.trans hs2) fun _ ht => ?_
  exact ht.before hs fun hd => by omega

/-- A token that is taken first pays for what comes behind it. -/
theorem Costs.take_first {f : Unit → Parser β} (hfront : (front c s).kind ≠ .eof)
    (hf : Costs c s.next w (k + w) (f ()) k2 (h - 2)) :
    (advance >>= f).Post c s (fun _ s1 => Spends w k k2 s s1 ∧ s1.rest.length < s.rest.length)
      (fun _ => Tight c w k h s) := by
  have hrest := rest_ne_nil hfront
  have htail := length_next hrest
  rw [post_bind, post_advance]
  refine hf.mono (fun _ s1 hs1 => ⟨(Spends.next hrest).trans hs1, ?_⟩) fun _ ht => ?_
  · have hforward := hs1.forward
    omega
  · exact ht.before (.next hrest) fun hd => by omega

theorem Costs.ite (q : Prop) [Decidable q] {p' : Parser α} (hp : q → Costs c s w k p k' h)
    (hp' : ¬q → Costs c s w k p' k' h) : Costs c s w k (if q then p else p') k' h := by
  split
  · next hq => exact hp hq
  · next hq => exact hp' hq

theorem costs_pure (a : α) (hk : k' ≤ k) : Costs c s w k (pure a : Parser α) k' h :=
  Spends.same rfl rfl rfl hk

theorem costs_current {f : Token → Parser β} :
    Costs c s w k (current >>= f) k' h ↔ Costs c s w k (f (front c s)) k' h := by
  unfold Costs
  rw [post_bind, post_current]

theorem costs_isAt {f : Bool → Parser β} {kind : TokenKind} :
    Costs c s w k (isAt kind >>= f) k' h ↔
      Costs c s w k (f (decide ((front c s).kind = kind))) k' h := by
  unfold Costs
  rw [post_bind, post_isAt]

theorem costs_rounds {f : Nat → Parser β} :
    Costs c s w k (rounds >>= f) k' h ↔ Costs c s w k (f (c.tokenCount + 1)) k' h := by
  unfold Costs
  rw [post_bind, post_rounds]

theorem costs_isAtStructBody {f : Bool → Parser β} :
    Costs c s w k (isAtStructBody >>= f) k' h ↔
      Costs c s w k (f (opensStructBody s.rest)) k' h := by
  unfold Costs
  rw [post_bind, post_isAtStructBody]

theorem costs_resolve {f : String → Parser β} {sym : Symbol} :
    Costs c s w k (resolve sym >>= f) k' h ↔
      Costs c s w k (f (s.names.resolve sym)) k' h := by
  unfold Costs
  rw [post_bind, post_resolve]

/-! ### Steps -/

theorem costs_tooDeep (hh : h ≤ 2 * s.rest.length) :
    Costs c s w k (tooDeep : Parser α) k' h := by
  unfold Costs
  rw [post_tooDeep]
  exact .inr (.inr (.inr hh))

theorem costs_fault (fault : ParseFault) (span : Span) (hk : k' ≤ k) :
    Costs c s w k (Parser.fault fault span) k' h := by
  unfold Costs
  rw [post_fault]
  exact ⟨Or.inl, fun _ => .same rfl rfl rfl hk⟩

theorem costs_intern (text : String) (hk : k' ≤ k) : Costs c s w k (intern text) k' h := by
  unfold Costs
  rw [post_intern]
  exact .same rfl rfl rfl hk

/-- A node costs one credit. -/
theorem costs_build {kind : NodeKind Symbol NodeId} {span : Span}
    (hwidth : kind.children.length ≤ c.tokenCount + 3) (hk : k' + 1 ≤ k) :
    Costs c s w k (build kind span) k' h := by
  unfold Costs
  rw [post_build]
  constructor
  · intro e he
    have hrefused := mt (s.arena.refusal?_eq_none kind).mpr (by simp [he])
    by_cases hmany : s.arena.maxChildren < kind.children.length
    · exact .inr (.inr (.inl (by omega)))
    · exact .inr (.inl (by omega))
  · intro _
    refine ⟨rfl, Nat.le_refl _, ?_, rfl, rfl⟩
    rw [ParseState.size_grow]
    simp only [ParseState.grow]
    omega

/-- Most kinds have at most three children. -/
theorem costs_build_few {kind : NodeKind Symbol NodeId} {span : Span}
    (hwidth : kind.children.length ≤ 3) (hk : k' + 1 ≤ k) :
    Costs c s w k (build kind span) k' h :=
  costs_build (by omega) hk

theorem costs_expect (kind : TokenKind) (hk : k' ≤ k) : Costs c s w k (expect kind) k' h := by
  unfold Costs
  rw [post_expect]
  split
  · exact .next_any hk
  · exact costs_fault _ _ hk

/-- A token that is known to be there is taken. -/
theorem Costs.expect {f : Span → Parser β} {kind : TokenKind} (hfront : (front c s).kind = kind)
    (heof : kind ≠ .eof) (hf : Costs c s.next w (k + w) (f (front c s).span) k2 (h - 2)) :
    Costs c s w k (Parser.expect kind >>= f) k2 h := by
  unfold Costs
  rw [post_bind, post_expect, if_pos hfront]
  exact hf.from_next (hfront ▸ heof)

theorem Costs.eat {f : Bool → Parser β} {kind : TokenKind} (heof : kind ≠ .eof)
    (hthere : (front c s).kind = kind → Costs c s.next w (k + w) (f true) k2 (h - 2))
    (hnot : (front c s).kind ≠ kind → Costs c s w k (f false) k2 h) :
    Costs c s w k (Parser.eat kind >>= f) k2 h := by
  unfold Costs
  rw [post_bind, post_eat]
  split
  · next hfront => exact (hthere hfront).from_next (hfront ▸ heof)
  · next hfront => exact hnot hfront

theorem costs_eat (kind : TokenKind) (hk : k' ≤ k) : Costs c s w k (eat kind) k' h := by
  unfold Costs
  rw [post_eat]
  split
  · exact .next_any hk
  · exact .same rfl rfl rfl hk

theorem costs_expectIdent (hk : k' ≤ k) : Costs c s w k expectIdent k' h := by
  unfold Costs
  rw [post_expectIdent]
  constructor
  · intro sym hsym
    have hrest := rest_ne_nil (c := c) (s := s) (by simp [hsym])
    exact (Spends.next hrest).weaken (by omega)
  · intro _
    have hfault : Costs c s w k (fault (.expected "identifier" (front c s).kind)
        (front c s).span) k h := costs_fault _ _ (Nat.le_refl k)
    refine hfault.imp fun _ s1 hs => ?_
    rw [post_intern]
    exact hs.trans (.same rfl rfl rfl hk)

/-! ### Lists -/

/-- A list costs what one item costs: each further one comes with a comma. -/
theorem itemsUntil_costs {close : TokenKind} {item : Parser α} (hm : m ≤ w)
    (hitem : Bounded c w m d item) (hh : h ≤ d) (fuel : Nat) (done : Array α) (s : ParseState)
    (hk : k' + m ≤ k) :
    (itemsUntil close item fuel done).Post c s
      (fun xs s' => Spends w k k' s s' ∧ xs.length ≤ done.size + fuel)
      (fun _ => Tight c w k h s) := by
  induction fuel generalizing done s k with
  | zero => exact ⟨.same rfl rfl rfl (by omega), by simp⟩
  | succ fuel ih =>
    unfold itemsUntil
    rw [post_bind, post_isAt, post_bind, post_isAt]
    split
    · rw [post_pure]
      exact ⟨.same rfl rfl rfl (by omega), by simp⟩
    · rw [post_bind]
      refine (hitem s k k' h hk hh).imp fun x s1 hs => ?_
      rw [post_bind, post_eat]
      split
      · next hcomma =>
        have hrest : s1.rest ≠ [] := rest_ne_nil (c := c) (by simp [hcomma])
        have hnext := Spends.next (w := w) (k := k') hrest
        have hs' := hs.trans hnext
        have hforward := hs'.forward
        refine (ih (k := k' + w) (done.push x) s1.next (by omega)).mono ?_ ?_
        · intro xs s2 ⟨hs2, hlength⟩
          refine ⟨hs'.trans hs2, ?_⟩
          simp only [Array.size_push] at hlength
          omega
        · intro _ ht
          exact ht.before hs' fun hd => by omega
      · exact ⟨hs, by simp⟩

theorem commaList_costs {close : TokenKind} {item : Parser α} (hm : m ≤ w)
    (hitem : Bounded c w m d item) (hh : h ≤ d) (hk : k' + m ≤ k) :
    (commaList close item).Post c s
      (fun xs s' => Spends w k k' s s' ∧ xs.length ≤ c.tokenCount + 1)
      (fun _ => Tight c w k h s) := by
  unfold commaList
  rw [post_bind, post_rounds]
  refine (itemsUntil_costs hm hitem hh _ #[] s hk).imp fun xs s' ⟨hs, hlength⟩ => ⟨hs, ?_⟩
  simpa using hlength

end

/-! ### Types and expressions -/

section

variable {c : ParseSettings} {s : ParseState} {k k' h d : Nat} {nested operand bare : Parser Built}

theorem arrayLength_costs {w : Nat} (hk : k' ≤ k) : Costs c s w k arrayLength k' h := by
  unfold arrayLength
  rw [costs_current]
  have hmissing (f : ParseFault) (span : Span) :
      Costs c s w k (do fault f span; return 0 : Parser Nat) k' h :=
    Costs.bind k (costs_fault _ _ (Nat.le_refl k)) fun _ _ _ => costs_pure _ hk
  dsimp only
  split
  · next n hfront =>
    refine Costs.ite _ (fun _ => ?_) fun _ => hmissing _ _
    exact Costs.take (by simp [hfront]) (costs_pure _ (by omega))
  · exact hmissing _ _

/-- A type costs one credit: each further node has a token of its own. -/
theorem type_bounded (depth : Nat) : Bounded c 2 1 depth (type depth) := by
  induction depth with
  | zero =>
    intro s k k' h hk hh
    exact costs_tooDeep (by omega)
  | succ depth ih =>
    intro s k k' h hk hh
    unfold type
    rw [costs_current]
    split
    · next hfront =>
      refine Costs.take (by simp [hfront]) ?_
      refine Costs.bind (k + 2) (costs_eat _ (Nat.le_refl _)) fun mutable s1 _ => ?_
      refine Costs.bind (k + 1) (ih _ _ _ _ (by omega) (by omega)) fun inner s2 _ => ?_
      exact costs_build_few (by simp [NodeKind.children]) (by omega)
    · next hfront =>
      refine Costs.take (by simp [hfront]) ?_
      refine Costs.bind (k + 1) (ih _ _ _ _ (by omega) (by omega)) fun elem s1 _ => ?_
      refine Costs.bind (k + 1) (costs_expect _ (Nat.le_refl _)) fun _ s2 _ => ?_
      refine Costs.bind (k + 1) (arrayLength_costs (Nat.le_refl _)) fun len s3 _ => ?_
      refine Costs.bind (k + 1) (costs_expect _ (Nat.le_refl _)) fun close s4 _ => ?_
      exact costs_build_few (by simp [NodeKind.children]) (by omega)
    · next sym hfront =>
      refine Costs.take (by simp [hfront]) ?_
      rw [costs_resolve]
      split
      · exact costs_build_few (by simp [NodeKind.children]) (by omega)
      · exact costs_build_few (by simp [NodeKind.children]) (by omega)
    · refine Costs.bind k (costs_fault _ _ (Nat.le_refl k)) fun _ s1 _ => ?_
      refine Costs.bind k (costs_intern _ (Nat.le_refl k)) fun name s2 _ => ?_
      exact costs_build_few (by simp [NodeKind.children]) (by omega)

theorem fieldInit_bounded (hnested : Bounded c 2 1 d nested) :
    Bounded c 2 1 d (fieldInit nested) := by
  intro s k k' h hk hh
  unfold fieldInit
  refine Costs.bind k (costs_expectIdent (Nat.le_refl k)) fun name s1 _ => ?_
  refine Costs.bind k (costs_expect _ (Nat.le_refl k)) fun _ s2 _ => ?_
  refine Costs.bind k' (hnested _ _ _ _ hk hh) fun value s3 _ => ?_
  exact costs_pure _ (Nat.le_refl _)

/-- The name in front has paid for the node. -/
theorem structLiteral_costs (hnested : Bounded c 2 1 d nested) (name : Symbol) (start : Span)
    (hk : k' + 2 ≤ k) (hh : h ≤ d) :
    Costs c s 2 k (structLiteral nested name start) k' h := by
  unfold structLiteral
  refine Costs.bind k (costs_expect _ (Nat.le_refl k)) fun _ s1 _ => ?_
  refine Costs.bind_post (k' + 1)
    (commaList_costs (by decide) (fieldInit_bounded hnested) hh (by omega))
    fun fields s2 _ hlength => ?_
  refine Costs.bind (k' + 1) (costs_expect _ (Nat.le_refl _)) fun close s3 _ => ?_
  refine costs_build ?_ (Nat.le_refl _)
  simp only [NodeKind.children, List.length_map]
  omega

theorem arrayLiteral_costs (hnested : Bounded c 2 1 d nested) (hk : k' ≤ k) (hh : h ≤ d + 2)
    (hfront : (front c s).kind = .punct .lbracket) :
    Costs c s 2 k (arrayLiteral nested) k' h := by
  unfold arrayLiteral
  refine Costs.expect hfront (by simp) ?_
  refine Costs.bind_post (k' + 1) (commaList_costs (by decide) hnested (by omega) (by omega))
    fun elems s1 _ hlength => ?_
  refine Costs.bind (k' + 1) (costs_expect _ (Nat.le_refl _)) fun close s2 _ => ?_
  refine costs_build ?_ (Nat.le_refl _)
  simp only [NodeKind.children, List.length_map]
  omega

theorem literal_costs {kind : NodeKind Symbol NodeId} {span : Span}
    (hfront : (front c s).kind ≠ .eof) (hwidth : kind.children.length ≤ 3) (hk : k' ≤ k) :
    Costs c s 2 k (literal kind span) k' h :=
  Costs.take hfront (costs_build_few hwidth (by omega))

theorem primary_bounded (hnested : Bounded c 2 1 d nested) (inHeader : Bool) :
    Bounded c 2 1 (d + 2) (primary nested inHeader) := by
  intro s k k' h hk hh
  unfold primary
  rw [costs_current]
  split
  · next node hliteral =>
    obtain ⟨heof, hchildren⟩ := TokenKind.of_literal? hliteral
    exact literal_costs heof (by simp [hchildren]) (by omega)
  · split
    · next sym hfront =>
      refine Costs.take (by simp [hfront]) ?_
      rw [costs_isAtStructBody]
      refine Costs.ite _ (fun _ => ?_) fun _ => ?_
      · exact structLiteral_costs hnested _ _ (by omega) (by omega)
      · exact costs_build_few (by simp [NodeKind.children]) (by omega)
    · next hfront =>
      refine Costs.take (by simp [hfront]) ?_
      refine Costs.bind (k + 1) (hnested _ _ _ _ (by omega) (by omega)) fun inner s1 _ => ?_
      refine Costs.bind (k + 1) (costs_expect _ (Nat.le_refl _)) fun _ s2 _ => ?_
      exact costs_pure _ (by omega)
    · next hfront => exact arrayLiteral_costs hnested (by omega) hh hfront
    · refine Costs.bind k (costs_fault _ _ (Nat.le_refl k)) fun _ s1 _ => ?_
      exact costs_build_few (by simp [NodeKind.children]) hk

theorem applyPrefix_costs (hoperand : Bounded c 2 1 d operand) (op : UnaryOp) (start : Span)
    (hk : k' + 2 ≤ k) (hh : h ≤ d) : Costs c s 2 k (applyPrefix operand op start) k' h := by
  unfold applyPrefix
  refine Costs.bind (k' + 1) (hoperand _ _ _ _ hk hh) fun x s1 _ => ?_
  exact costs_build_few (by simp [NodeKind.children]) (Nat.le_refl _)

/-- Two references from one token are what the second credit of a token is
for. -/
theorem prefixed_bounded {e : Nat} (hoperand : Bounded c 2 1 d operand)
    (hbare : Bounded c 2 1 e bare) (he : e ≤ d + 2) :
    Bounded c 2 1 e (prefixed operand bare) := by
  intro s k k' h hk hh
  unfold prefixed
  rw [costs_current]
  split
  · next hfront =>
    refine Costs.take (by simp [hfront]) ?_
    refine Costs.bind (k + 2) (costs_eat _ (Nat.le_refl _)) fun mutable s1 _ => ?_
    exact applyPrefix_costs hoperand _ _ (by omega) (by omega)
  · next hfront =>
    refine Costs.take (by simp [hfront]) ?_
    rw [costs_current]
    refine Costs.bind k (applyPrefix_costs hoperand _ _ (Nat.le_refl _) (by omega))
      fun inner s1 _ => ?_
    exact costs_build_few (by simp [NodeKind.children]) hk
  · split
    · next op hop =>
      have hfront : (front c s).kind ≠ .eof := by
        intro heof
        simp [heof, prefixOp?] at hop
      refine Costs.take hfront ?_
      exact applyPrefix_costs hoperand _ _ (by omega) (by omega)
    · exact hbare _ _ _ _ hk hh

/-- A postfix operation pays for its node with the token that opens it. -/
theorem postfixStep_costs (hnested : Bounded c 2 1 d nested) (base : Built) (hh : h ≤ d + 2)
    (hopens : opensPostfix (front c s).kind = true) :
    (postfixStep nested base).Post c s
      (fun _ s1 => Spends 2 k k s s1 ∧ s1.rest.length < s.rest.length)
      (fun _ => Tight c 2 k h s) := by
  unfold postfixStep
  rw [post_bind, post_current]
  split
  · next hfront =>
    refine Costs.take_first (by simp [hfront]) ?_
    refine Costs.bind_post (k + 1) (commaList_costs (by decide) hnested (by omega) (Nat.le_refl _))
      fun args s1 _ hlength => ?_
    refine Costs.bind (k + 1) (costs_expect _ (Nat.le_refl _)) fun close s2 _ => ?_
    refine costs_build ?_ (Nat.le_refl _)
    simp only [NodeKind.children, List.length_cons, List.length_map]
    omega
  · next hfront =>
    refine Costs.take_first (by simp [hfront]) ?_
    refine Costs.bind (k + 1) (hnested _ _ _ _ (Nat.le_refl _) (by omega)) fun index s1 _ => ?_
    refine Costs.bind (k + 1) (costs_expect _ (Nat.le_refl _)) fun close s2 _ => ?_
    exact costs_build_few (by simp [NodeKind.children]) (Nat.le_refl _)
  · next hfront =>
    refine Costs.take_first (by simp [hfront]) ?_
    refine Costs.bind (k + 2) (costs_expectIdent (Nat.le_refl _)) fun field s1 _ => ?_
    exact costs_build_few (by simp [NodeKind.children]) (by omega)
  · simp [opensPostfix] at hopens

/-- The bounds of the three mutual readers at one depth. Chains cost nothing:
the tokens of each link pay for its nodes. -/
structure ExprBounded (c : ParseSettings) (depth : Nat) : Prop where
  operand (inHeader : Bool) : Bounded c 2 1 depth (unary depth inHeader)
  postfixes (base : Built) : Bounded c 2 0 (depth + 1) (postfixChain depth base)
  infixes (inHeader : Bool) (least : Nat) (lhs : Built) :
    Bounded c 2 0 (depth + 1) (infixChain depth inHeader least lhs)

theorem ExprBounded.whole {depth : Nat} (hd : ExprBounded c depth) (inHeader : Bool) (least : Nat) :
    Bounded c 2 1 depth (do infixChain depth inHeader least (← unary depth inHeader)) := by
  intro s k k' h hk hh
  refine Costs.bind k' (hd.operand inHeader _ _ _ _ hk hh) fun lhs s1 _ => ?_
  exact hd.infixes inHeader least lhs _ _ _ _ (by omega) (by omega)

theorem front_of_opensPostfix (hopens : opensPostfix (front c s).kind = true) :
    (front c s).kind ≠ .eof := by
  intro heof
  simp [heof, opensPostfix] at hopens

theorem front_of_infixOp? {precedence : Nat} {op : InfixOp}
    (hop : (front c s).kind.infixOp? = some (precedence, op)) : (front c s).kind ≠ .eof := by
  intro heof
  simp [heof, TokenKind.infixOp?] at hop

theorem one_le_length (hfront : (front c s).kind ≠ .eof) : 1 ≤ s.rest.length :=
  List.length_pos_iff.mpr (rest_ne_nil hfront)

theorem exprBounded_zero : ExprBounded c 0 where
  operand inHeader := by
    intro s k k' h hk hh
    exact costs_tooDeep (by omega)
  postfixes base := by
    intro s k k' h hk hh
    unfold postfixChain
    rw [costs_current]
    refine Costs.ite _ (fun hopens => ?_) fun _ => costs_pure _ (by omega)
    have hlength := one_le_length (front_of_opensPostfix hopens)
    exact costs_tooDeep (by omega)
  infixes inHeader least lhs := by
    intro s k k' h hk hh
    unfold infixChain
    rw [costs_current]
    split
    · next precedence op hop =>
      refine Costs.ite _ (fun _ => costs_pure _ (by omega)) fun _ => ?_
      have hlength := one_le_length (front_of_infixOp? hop)
      exact costs_tooDeep (by omega)
    · exact costs_pure _ (by omega)

/-- An operand costs one credit, and what is linked to it pays for itself. -/
theorem exprBounded_succ {depth : Nat} (hd : ExprBounded c depth) : ExprBounded c (depth + 1) where
  operand inHeader := by
    unfold unary
    have hbare : Bounded c 2 1 (depth + 1) (do
        postfixChain depth (← primary
          (do infixChain depth false 1 (← unary depth false)) inHeader)) := by
      intro s k k' h hk hh
      refine Costs.bind k' (primary_bounded (hd.whole false 1) inHeader _ _ _ _ hk (by omega))
        fun base s1 _ => ?_
      exact hd.postfixes base _ _ _ _ (by omega) hh
    exact prefixed_bounded (hd.operand inHeader) hbare (by omega)
  postfixes base := by
    intro s k k' h hk hh
    unfold postfixChain
    rw [costs_current]
    refine Costs.ite _ (fun hopens => ?_) fun _ => costs_pure _ (by omega)
    refine Costs.bind_taking (postfixStep_costs (hd.whole false 1) base hh hopens)
      fun whole s1 => ?_
    exact hd.postfixes whole _ _ _ _ hk (by omega)
  infixes inHeader least lhs := by
    intro s k k' h hk hh
    unfold infixChain
    rw [costs_current]
    split
    · next precedence op hop =>
      refine Costs.ite _ (fun _ => costs_pure _ (by omega)) fun _ => ?_
      refine Costs.take (front_of_infixOp? hop) ?_
      refine Costs.bind (k + 1) (hd.operand inHeader _ _ _ _ (Nat.le_refl _) (by omega))
        fun first s1 _ => ?_
      refine Costs.bind (k + 1) (hd.infixes inHeader _ first _ _ _ _ (Nat.le_refl _) (by omega))
        fun rhs s2 _ => ?_
      refine Costs.bind k (costs_build_few ?_ (Nat.le_refl _)) fun whole s3 _ => ?_
      · cases op <;> simp [InfixOp.node, NodeKind.children]
      · exact hd.infixes inHeader least whole _ _ _ _ (by omega) (by omega)
    · exact costs_pure _ (by omega)

theorem exprBounded (depth : Nat) : ExprBounded c depth := by
  induction depth with
  | zero => exact exprBounded_zero
  | succ depth ih => exact exprBounded_succ ih

/-- An expression has at most one node more than twice its tokens. -/
theorem expr_bounded (depth : Nat) (inHeader : Bool) :
    Bounded c 2 1 depth (expr depth inHeader) :=
  (exprBounded depth).whole inHeader 1

end

end Parser

end StagedCompiler
