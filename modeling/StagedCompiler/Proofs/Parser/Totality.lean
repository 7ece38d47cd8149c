import StagedCompiler.Proofs.Parser.ModeAgreement
import StagedCompiler.Proofs.Parser.NodeCredit

/-!
Lenient compilation always ends well if the limits are in proportion to the
source. The credits of the expression readers are carried on to statements,
items and programs: a program has at most four nodes for each token, and a
reader of it goes at most two levels down for each.
-/

namespace StagedCompiler

namespace Parser

section

variable {α β : Type} {c : ParseSettings} {s s' : ParseState} {w k k' h d m n : Nat} {p : Parser α}

theorem Spends.frame (hs : Spends w k k' s s') (n : Nat) : Spends w (k + n) (k' + n) s s' := by
  have hnodes := hs.nodes
  exact ⟨hs.total, hs.forward, by omega, hs.maxNodes, hs.maxChildren⟩

/-- Statements are read at four credits a token, expressions at two. -/
theorem Spends.coarser (hs : Spends 2 k k' s s') : Spends 4 k k' s s' := by
  have hnodes := hs.nodes
  have hforward := hs.forward
  exact ⟨hs.total, hforward, by omega, hs.maxNodes, hs.maxChildren⟩

theorem Tight.coarser (ht : Tight c 2 k h s) : Tight c 4 k h s := by
  rcases ht with hstrict | htoomany | hwide | hdeep
  · exact .inl hstrict
  · exact .inr (.inl (by omega))
  · exact .inr (.inr (.inl hwide))
  · exact .inr (.inr (.inr hdeep))

theorem Costs.coarser (hp : Costs c s 2 k p k' h) : Costs c s 4 k p k' h :=
  hp.mono (fun _ _ hs => hs.coarser) fun _ ht => ht.coarser

theorem Bounded.coarser (hp : Bounded c 2 m d p) : Bounded c 4 m d p :=
  fun s k k' h hk hh => (hp s k k' h hk hh).coarser

theorem costs_map (f : α → β) (hp : Costs c s w k p k' h) : Costs c s w k (f <$> p) k' h := by
  unfold Costs
  rw [post_map]
  exact hp

theorem costs_after {kind : TokenKind} (heof : kind ≠ .eof) (hk : k' ≤ k)
    (hp : (front c s).kind = kind → Costs c s.next w (k + w) p k' (h - 2)) :
    Costs c s w k (after kind p) k' h := by
  unfold after
  refine Costs.eat heof (fun hfront => ?_) fun _ => costs_pure _ hk
  exact Costs.bind k' (hp hfront) fun _ _ _ => costs_pure _ (Nat.le_refl _)

/-- A fault that is reported leaves the tokens as they are. -/
theorem Costs.fault {g : Unit → Parser β} {f : ParseFault} {span : Span}
    (hg : ∀ d, Costs c (s.report d) w k (g ()) k' h) :
    Costs c s w k (Parser.fault f span >>= g) k' h := by
  unfold Costs
  rw [post_bind, post_fault]
  refine ⟨Or.inl, fun _ => (hg _).mono (fun _ s2 hs2 => ?_) fun _ ht => ht⟩
  have hreport (d : Diagnostic) : Spends w k k s (s.report d) :=
    .same rfl rfl rfl (Nat.le_refl k)
  exact (hreport _).trans hs2

end

/-! ### Statements without blocks -/

section

variable {c : ParseSettings} {s : ParseState} {k k' h d : Nat}

theorem length_toList_le {α : Type} (o : Option α) : o.toList.length ≤ 1 := by
  cases o <;> simp

theorem letStmt_costs (hfront : (front c s).kind = .keyword .letKw) (hk : k' ≤ k) (hh : h ≤ d) :
    Costs c s 2 k (letStmt d) k' h := by
  unfold letStmt
  refine Costs.expect hfront (by simp) ?_
  refine Costs.bind (k + 2) (costs_eat _ (Nat.le_refl _)) fun mutable s1 _ => ?_
  refine Costs.bind (k + 2) (costs_expectIdent (Nat.le_refl _)) fun name s2 _ => ?_
  refine Costs.bind (k + 2) (costs_after (by simp) (Nat.le_refl _) fun _ => ?_) fun ty s3 _ => ?_
  · exact type_bounded d _ _ _ _ (by omega) (by omega)
  refine Costs.bind (k + 2) (costs_after (by simp) (Nat.le_refl _) fun _ => ?_) fun init s4 _ => ?_
  · exact expr_bounded d false _ _ _ _ (by omega) (by omega)
  refine Costs.bind (k + 2) (costs_expect _ (Nat.le_refl _)) fun close s5 _ => ?_
  refine costs_build_few ?_ (by omega)
  have hty := length_toList_le (ty.map (·.id))
  have hinit := length_toList_le (init.map (·.id))
  simp only [NodeKind.children, List.length_append]
  omega

theorem returnStmt_costs (hfront : (front c s).kind = .keyword .returnKw) (start : Span)
    (hk : k' ≤ k) (hh : h ≤ d) : Costs c s 2 k (returnStmt d start) k' h := by
  unfold returnStmt
  refine Costs.take (by simp [hfront]) ?_
  rw [costs_isAt, costs_isAt]
  have hclose (s1 : ParseState) (value : Option Built) : Costs c s1 2 (k + 1) (do
      let close ← expect (.punct .semicolon)
      build (.returnStmt (value.map (·.id))) (start.to close)) k' (h - 2) := by
    refine Costs.bind (k + 1) (costs_expect _ (Nat.le_refl _)) fun close s2 _ => ?_
    refine costs_build_few ?_ (by omega)
    exact Nat.le_trans (length_toList_le _) (by decide)
  refine Costs.ite _ (fun _ => ?_) fun _ => ?_
  · exact Costs.bind (k + 1) (costs_pure _ (by omega)) fun _ s1 _ => hclose s1 _
  · have hvalue := expr_bounded (c := c) d false s.next (k + 2) (k + 1) (h - 2)
      (Nat.le_refl _) (by omega)
    exact Costs.bind (k + 1) (costs_map _ hvalue) fun _ s1 _ => hclose s1 _

theorem jump_costs {kind : NodeKind Symbol NodeId} {start : Span}
    (hfront : (front c s).kind ≠ .eof) (hwidth : kind.children.length ≤ 3) (hk : k' ≤ k) :
    Costs c s 2 k (jump kind start) k' h := by
  unfold jump
  refine Costs.take hfront ?_
  refine Costs.bind (k + 2) (costs_expect _ (Nat.le_refl _)) fun close s1 _ => ?_
  exact costs_build_few hwidth (by omega)

/-- An expression statement at a token that starts none is two nodes out of
nothing. -/
theorem exprOrAssign_costs (hk : k' + 2 ≤ k) (hh : h ≤ d) :
    Costs c s 2 k (exprOrAssign d) k' h := by
  unfold exprOrAssign
  refine Costs.bind (k' + 1) (expr_bounded d false _ _ _ _ (by omega) hh) fun lhs s1 _ => ?_
  rw [costs_current]
  split
  · next op hop =>
    have hfront : (front c s1).kind ≠ .eof := by
      intro heof
      simp [heof, TokenKind.assignOp?] at hop
    have hvalue (s2 : ParseState) (hfront : (front c s2).kind ≠ .eof) :
        Costs c s2 2 (k' + 1) (do
          advance
          let value ← expr d false
          let close ← expect (.punct .semicolon)
          build (.assign lhs.id op value.id) (lhs.span.to close)) k' h := by
      refine Costs.take hfront ?_
      refine Costs.bind (k' + 2) (expr_bounded d false _ _ _ _ (by omega) (by omega))
        fun value s3 _ => ?_
      refine Costs.bind (k' + 2) (costs_expect _ (Nat.le_refl _)) fun close s4 _ => ?_
      exact costs_build_few (by simp [NodeKind.children]) (by omega)
    refine Costs.ite _ (fun _ => ?_) fun _ => hvalue s1 hfront
    exact Costs.fault fun fault => hvalue (s1.report fault) hfront
  · refine Costs.bind (k' + 1) (costs_expect _ (Nat.le_refl _)) fun close s2 _ => ?_
    exact costs_build_few (by simp [NodeKind.children]) (Nat.le_refl _)

end

/-! ### Blocks -/

section

variable {c : ParseSettings} {s s' : ParseState} {k k' h d : Nat} {stmt : Parser Built}

/-- A statement pays for itself at four credits a token, or it is a simple one
that costs two credits at two a token. -/
def StmtSpends (s s' : ParseState) : Prop :=
  Spends 4 2 2 s s' ∨ Spends 2 2 0 s s'

def StmtBounded (c : ParseSettings) (depth : Nat) (stmt : Parser Built) : Prop :=
  ∀ s h, h ≤ depth → stmt.Post c s (fun _ s' => StmtSpends s s') (fun _ => Tight c 4 2 h s)

theorem StmtSpends.total (hs : StmtSpends s s') :
    s'.consumed + s'.rest.length = s.consumed + s.rest.length :=
  hs.elim Spends.total Spends.total

/-- A statement that took a token has paid for itself. -/
theorem StmtSpends.of_taken (hs : StmtSpends s s') (htaken : s'.consumed ≠ s.consumed) :
    Spends 4 2 2 s s' := by
  rcases hs with hs | hs
  · exact hs
  · have htotal := hs.total
    have hforward := hs.forward
    have hnodes := hs.nodes
    exact ⟨htotal, hforward, by omega, hs.maxNodes, hs.maxChildren⟩

/-- One that took none is paid for by the token that is dropped after it. -/
theorem StmtSpends.of_dropped (hs : StmtSpends s s') (hrest : s'.rest ≠ []) :
    Spends 4 2 2 s s'.next := by
  rcases hs with hs | hs
  · exact hs.trans (.next_any (Nat.le_refl _))
  · exact (hs.coarser.trans (Spends.next hrest)).weaken (by omega)

theorem Spends.of_two (hs : Spends 4 2 2 s s') (hk : 2 ≤ k) : Spends 4 k k s s' := by
  obtain ⟨n, rfl⟩ := Nat.exists_eq_add_of_le hk
  exact hs.frame n

/-- What follows a round starts with the credits that the round had. -/
theorem Spends.round {p : Parser (List NodeId)} {m n : Nat} (hs : Spends 4 k k s s')
    (hp : p.Post c s' (fun xs s'' => Spends 4 k k s' s'' ∧ xs.length ≤ m) fun _ => Tight c 4 k h s')
    (hle : m ≤ n) :
    p.Post c s' (fun xs s'' => Spends 4 k k s s'' ∧ xs.length ≤ n) fun _ => Tight c 4 k h s := by
  have hforward := hs.forward
  exact hp.mono (fun xs s'' ⟨hrest, hlength⟩ => ⟨hs.trans hrest, Nat.le_trans hlength hle⟩)
    fun _ ht => ht.before hs fun hd => by omega

/-- A round pays for its statement, or drops a token that pays for it. -/
theorem stmtsUntil_costs (hstmt : StmtBounded c d stmt) (hh : h ≤ d) (hk : 2 ≤ k) (fuel : Nat)
    (done : Array NodeId) (s : ParseState) :
    (stmtsUntil stmt fuel done).Post c s
      (fun xs s' => Spends 4 k k s s' ∧ xs.length ≤ done.size + fuel)
      (fun _ => Tight c 4 k h s) := by
  induction fuel generalizing done s with
  | zero => exact ⟨.same rfl rfl rfl (Nat.le_refl k), by simp⟩
  | succ fuel ih =>
    have hround (s1 : ParseState) (hs : Spends 4 k k s s1) (done' : Array NodeId)
        (hdone : done'.size ≤ done.size + 1) :=
      hs.round (ih done' s1) (show _ ≤ done.size + (fuel + 1) by omega)
    unfold stmtsUntil
    rw [post_bind, post_isAt, post_bind, post_isAt]
    split
    · rw [post_pure]
      exact ⟨.same rfl rfl rfl (Nat.le_refl k), by simp⟩
    · next hmore =>
      have hfront : (front c s).kind ≠ .eof := by
        intro heof
        simp [heof] at hmore
      rw [post_bind, post_eat]
      split
      · exact hround s.next (.next_any (Nat.le_refl k)) done (by omega)
      · rw [if_neg (by simp), post_bind, post_consumed, post_bind]
        refine (hstmt s h hh).mono (fun one s1 hs => ?_) fun _ ht => ?_
        · rw [post_bind, post_consumed]
          split
          · next hnone =>
            have hrest : s1.rest ≠ [] := by
              have htotal := hs.total
              have hlength := one_le_length hfront
              exact List.length_pos_iff.mp (by omega)
            rw [post_bind, post_advance]
            exact hround s1.next ((hs.of_dropped hrest).of_two hk) done (by omega)
          · next htaken =>
            exact hround s1 ((hs.of_taken htaken).of_two hk) _ (by simp)
        · exact ht.before (.same rfl rfl rfl hk) fun hd => hd

/-- The body of a block, behind its brace or where that should be. -/
theorem blockBody_costs (hstmt : StmtBounded c d stmt) (hh : h ≤ d) (hk : 2 ≤ k)
    (hk' : k' + 1 ≤ k) (start : Span) :
    Costs c s 4 k (do
      let stmts ← stmtsUntil stmt (← rounds) #[]
      let close ← expect (.punct .rbrace)
      build (.block stmts) (start.to close)) k' h := by
  rw [costs_rounds]
  refine Costs.bind_post k (stmtsUntil_costs hstmt hh hk _ #[] s) fun stmts s1 _ hlength => ?_
  refine Costs.bind k (costs_expect _ (Nat.le_refl k)) fun close s2 _ => ?_
  refine costs_build ?_ hk'
  simp only [Array.size_empty] at hlength
  simp only [NodeKind.children]
  omega

theorem braced_costs (hstmt : StmtBounded c d stmt) (hh : h ≤ d) (hk : 2 ≤ k)
    (hk' : k' + 1 ≤ k) : Costs c s 4 k (braced stmt) k' h := by
  unfold braced
  refine Costs.bind k (costs_expect _ (Nat.le_refl k)) fun start s1 _ => ?_
  exact blockBody_costs hstmt hh hk hk' start

theorem braced_costs_at_brace (hfront : (front c s).kind = .punct .lbrace)
    (hstmt : StmtBounded c d stmt) (hh : h ≤ d + 2) (hk' : k' ≤ k + 3) :
    Costs c s 4 k (braced stmt) k' h := by
  unfold braced
  refine Costs.expect hfront (by simp) ?_
  exact blockBody_costs hstmt (by omega) (by omega) (by omega) _

/-- The bounds of blocks and conditionals at one depth. A block whose brace is
missing takes no token for its level. -/
structure BlockBounded (c : ParseSettings) (depth : Nat) : Prop where
  anywhere (s : ParseState) (k k' h : Nat) (hk : 2 ≤ k) (hk' : k' + 1 ≤ k) (hh : h ≤ depth - 1) :
    Costs c s 4 k (block depth) k' h
  atBrace (s : ParseState) (k h : Nat) (hfront : (front c s).kind = .punct .lbrace)
    (hh : h ≤ depth + 1) : Costs c s 4 k (block depth) (k + 3) h
  atIf (s : ParseState) (k h : Nat) (hfront : (front c s).kind = .keyword .ifKw)
    (hh : h ≤ depth) : Costs c s 4 k (conditional depth) k h

/-- Every statement but a simple one takes a token before anything else. -/
theorem stmtBounded (hd : BlockBounded c d) :
    StmtBounded c d (Parser.stmt d (block d) (conditional d)) := by
  intro s h hh
  have simple {p : Parser Built} (hp : Costs c s 2 2 p 0 h) :
      p.Post c s (fun _ s' => StmtSpends s s') (fun _ => Tight c 4 2 h s) :=
    hp.mono (fun _ _ hs => .inr hs) fun _ ht => ht.coarser
  have compound {p : Parser Built} (hp : Costs c s 4 2 p 2 h) :
      p.Post c s (fun _ s' => StmtSpends s s') (fun _ => Tight c 4 2 h s) :=
    hp.imp fun _ _ hs => .inl hs
  unfold Parser.stmt
  rw [post_bind, post_current]
  split
  · next hfront => exact simple (letStmt_costs hfront (by omega) hh)
  · next hfront => exact simple (returnStmt_costs hfront _ (by omega) hh)
  · next hfront => exact compound (hd.atIf s 2 h hfront hh)
  · next hfront =>
    refine compound (Costs.take (by simp [hfront]) ?_)
    refine Costs.bind 5 ((expr_bounded d true).coarser _ _ _ _ (by omega) (by omega))
      fun cond s1 _ => ?_
    refine Costs.bind 4 (hd.anywhere s1 5 4 _ (by omega) (by omega) (by omega)) fun body s2 _ => ?_
    exact costs_build_few (by simp [NodeKind.children]) (by omega)
  · next hfront =>
    refine compound (Costs.take (by simp [hfront]) ?_)
    refine Costs.bind 6 (costs_expectIdent (Nat.le_refl _)) fun var s1 _ => ?_
    refine Costs.bind 6 (costs_expect _ (Nat.le_refl _)) fun _ s2 _ => ?_
    refine Costs.bind 5 ((expr_bounded d true).coarser _ _ _ _ (by omega) (by omega))
      fun iter s3 _ => ?_
    refine Costs.bind 4 (hd.anywhere s3 5 4 _ (by omega) (by omega) (by omega)) fun body s4 _ => ?_
    exact costs_build_few (by simp [NodeKind.children]) (by omega)
  · next hfront =>
    exact simple (jump_costs (by simp [hfront]) (by simp [NodeKind.children]) (by omega))
  · next hfront =>
    exact simple (jump_costs (by simp [hfront]) (by simp [NodeKind.children]) (by omega))
  · next hfront =>
    exact compound ((hd.atBrace s 2 h hfront (by omega)).weaken (by omega) (Nat.le_refl h))
  · exact simple (exprOrAssign_costs (by omega) hh)

theorem ifElse_costs (hd : BlockBounded c d) (hfront : (front c s).kind = .keyword .ifKw)
    (hh : h ≤ d + 1) : Costs c s 4 k (ifElse d (block d) (conditional d)) k h := by
  unfold ifElse
  refine Costs.expect hfront (by simp) ?_
  refine Costs.bind (k + 3) ((expr_bounded d true).coarser _ _ _ _ (by omega) (by omega))
    fun cond s1 _ => ?_
  refine Costs.bind (k + 2) (hd.anywhere s1 _ _ _ (by omega) (by omega) (by omega))
    fun thenBranch s2 _ => ?_
  refine Costs.bind (k + 2) (costs_after (by simp) (Nat.le_refl _) fun _ => ?_)
    fun elseBranch s3 _ => ?_
  · rw [costs_isAt]
    refine Costs.ite _ (fun hif => ?_) fun _ => ?_
    · exact (hd.atIf s2.next _ _ (by simpa using hif) (by omega)).weaken (by omega) (Nat.le_refl _)
    · exact hd.anywhere s2.next _ _ _ (by omega) (by omega) (by omega)
  · refine costs_build_few ?_ (by omega)
    have helse := length_toList_le (elseBranch.map (·.id))
    simp only [NodeKind.children, List.length_append, List.length_cons, List.length_nil]
    omega

/-- Blocks and conditionals are paid for, by induction on the levels. -/
theorem blockBounded (depth : Nat) : BlockBounded c depth := by
  induction depth with
  | zero =>
    refine ⟨fun s k k' h _ _ hh => ?_, fun s k h hfront hh => ?_, fun s k h _ hh => ?_⟩
    · exact costs_tooDeep (by omega)
    · have hlength := one_le_length (c := c) (s := s) (by simp [hfront])
      exact costs_tooDeep (by omega)
    · exact costs_tooDeep (by omega)
  | succ depth ih =>
    have hstmt := stmtBounded ih
    refine ⟨fun s k k' h hk hk' hh => ?_, fun s k h hfront hh => ?_, fun s k h hfront hh => ?_⟩
    · exact braced_costs hstmt (by omega) hk hk'
    · exact braced_costs_at_brace hfront hstmt (by omega) (Nat.le_refl _)
    · exact ifElse_costs ih hfront (by omega)

end

/-! ### Items and programs -/

section

variable {c : ParseSettings} {s : ParseState} {k k' h d : Nat}

theorem param_bounded (depth : Nat) : Bounded c 4 2 depth (param depth) := by
  intro s k k' h hk hh
  unfold param
  rw [costs_current]
  refine Costs.bind k (costs_eat _ (Nat.le_refl k)) fun mutable s1 _ => ?_
  refine Costs.bind k (costs_expectIdent (Nat.le_refl k)) fun name s2 _ => ?_
  refine Costs.bind k (costs_expect _ (Nat.le_refl k)) fun _ s3 _ => ?_
  refine Costs.bind (k' + 1) ((type_bounded depth).coarser _ _ _ _ hk hh) fun ty s4 _ => ?_
  exact costs_build_few (by simp [NodeKind.children]) (Nat.le_refl _)

theorem structField_bounded (depth : Nat) : Bounded c 4 2 depth (structField depth) := by
  intro s k k' h hk hh
  unfold structField
  rw [costs_current]
  refine Costs.bind k (costs_expectIdent (Nat.le_refl k)) fun name s1 _ => ?_
  refine Costs.bind k (costs_expect _ (Nat.le_refl k)) fun _ s2 _ => ?_
  refine Costs.bind (k' + 1) ((type_bounded depth).coarser _ _ _ _ hk hh) fun ty s3 _ => ?_
  exact costs_build_few (by simp [NodeKind.children]) (Nat.le_refl _)

/-- A function behind its keyword, or where that should be. Two credits go to
a parameter out of nothing, one to a body and one to the function itself. -/
theorem functionTail_costs (isPublic : Bool) (start : Span) (hk : k' + 4 ≤ k) (hh : h ≤ d - 1) :
    Costs c s 4 k (do
      let (name, _) ← expectIdent
      let _ ← expect (.punct .lparen)
      let params ← commaList (.punct .rparen) (param d)
      let _ ← expect (.punct .rparen)
      let ret ← after (.punct .arrow) (type d)
      let body ← block d
      build (.function name isPublic (params.map (·.id)) (ret.map (·.id)) body.id)
        (start.to body.span)) k' h := by
  refine Costs.bind k (costs_expectIdent (Nat.le_refl k)) fun name s1 _ => ?_
  refine Costs.bind k (costs_expect _ (Nat.le_refl k)) fun _ s2 _ => ?_
  refine Costs.bind_post (k' + 2) (commaList_costs (by decide) (param_bounded d) (by omega)
    (by omega)) fun params s3 _ hlength => ?_
  refine Costs.bind (k' + 2) (costs_expect _ (Nat.le_refl _)) fun _ s4 _ => ?_
  refine Costs.bind (k' + 2) (costs_after (by simp) (Nat.le_refl _) fun _ => ?_) fun ret s5 _ => ?_
  · exact (type_bounded d).coarser _ _ _ _ (by omega) (by omega)
  refine Costs.bind (k' + 1) ((blockBounded d).anywhere _ _ _ _ (by omega) (Nat.le_refl _) hh)
    fun body s6 _ => ?_
  refine costs_build ?_ (Nat.le_refl _)
  have hret := length_toList_le (ret.map (·.id))
  simp only [NodeKind.children, List.length_append, List.length_map, List.length_cons,
    List.length_nil]
  omega

theorem structTail_costs (start : Span) (hk : k' + 3 ≤ k) (hh : h ≤ d) :
    Costs c s 4 k (do
      let (name, _) ← expectIdent
      let _ ← expect (.punct .lbrace)
      let fields ← commaList (.punct .rbrace) (structField d)
      let close ← expect (.punct .rbrace)
      build (.struct name (fields.map (·.id))) (start.to close)) k' h := by
  refine Costs.bind k (costs_expectIdent (Nat.le_refl k)) fun name s1 _ => ?_
  refine Costs.bind k (costs_expect _ (Nat.le_refl k)) fun _ s2 _ => ?_
  refine Costs.bind_post (k' + 1) (commaList_costs (by decide) (structField_bounded d) (by omega)
    (by omega)) fun fields s3 _ hlength => ?_
  refine Costs.bind (k' + 1) (costs_expect _ (Nat.le_refl _)) fun close s4 _ => ?_
  refine costs_build ?_ (Nat.le_refl _)
  simp only [NodeKind.children, List.length_map]
  omega

/-- The first token of an item pays for what the item fabricates. -/
theorem item_costs (hfront : (front c s).kind = .keyword .fnKw ∨
      (front c s).kind = .keyword .structKw ∨ (front c s).kind = .keyword .pubKw)
    (hh : h ≤ d) : Costs c s 4 k (item d) k h := by
  unfold item
  rw [costs_current]
  refine Costs.eat (by simp) (fun _ => ?_) fun hprivate => ?_
  · rw [costs_isAt]
    refine Costs.ite _ (fun _ => ?_) fun _ => ?_
    · unfold struct
      refine Costs.bind (k + 4) (costs_expect _ (Nat.le_refl _)) fun _ s1 _ => ?_
      exact structTail_costs _ (by omega) (by omega)
    · unfold function
      refine Costs.bind (k + 4) (costs_expect _ (Nat.le_refl _)) fun _ s1 _ => ?_
      exact functionTail_costs _ _ (Nat.le_refl _) (by omega)
  · rw [costs_isAt]
    refine Costs.ite _ (fun hstruct => ?_) fun hnot => ?_
    · unfold struct
      refine Costs.expect (by simpa using hstruct) (by simp) ?_
      exact structTail_costs _ (by omega) (by omega)
    · have hfn : (front c s).kind = .keyword .fnKw := by
        rcases hfront with hfn | hstruct | hpub
        · exact hfn
        · simp [hstruct] at hnot
        · exact absurd hpub hprivate
      unfold function
      refine Costs.expect hfn (by simp) ?_
      exact functionTail_costs _ _ (Nat.le_refl _) (by omega)

theorem costs_eatSeparator : Costs c s 4 k eatSeparator k h := by
  refine Costs.bind k (costs_eat _ (Nat.le_refl k)) fun found s1 _ => ?_
  exact Costs.ite _ (fun _ => costs_pure _ (Nat.le_refl k)) fun _ => costs_eat _ (Nat.le_refl k)

theorem pathTail_costs (fuel : Nat) (path : Array Symbol) (last : Span) (s : ParseState) :
    Costs c s 4 k (pathTail fuel path last) k h := by
  induction fuel generalizing path last s with
  | zero => exact costs_pure _ (Nat.le_refl k)
  | succ fuel ih =>
    unfold pathTail
    refine Costs.bind k costs_eatSeparator fun more s1 _ => ?_
    refine Costs.ite _ (fun _ => ?_) fun _ => costs_pure _ (Nat.le_refl k)
    exact Costs.bind k (costs_expectIdent (Nat.le_refl k)) fun name s2 _ => ih _ _ s2

theorem importPath_costs (hfront : (front c s).kind ≠ .eof) : Costs c s 4 k importPath k h := by
  unfold importPath
  rw [costs_current]
  refine Costs.take hfront ?_
  refine Costs.bind (k + 4) (costs_expectIdent (Nat.le_refl _)) fun first s1 _ => ?_
  rw [costs_rounds]
  refine Costs.bind (k + 4) (pathTail_costs _ _ _ s1) fun path s2 _ => ?_
  rw [costs_current]
  refine Costs.bind (k + 4) (costs_eat _ (Nat.le_refl _)) fun found s3 _ => ?_
  have hbuild (s4 : ParseState) (close : Span) :
      Costs c s4 4 (k + 4) (build (.importPath path.1) ((front c s).span.to close)) k (h - 2) :=
    costs_build_few (by simp [NodeKind.children]) (by omega)
  refine Costs.ite _ (fun _ => ?_) fun _ => ?_
  · exact Costs.bind (k + 4) (costs_pure _ (Nat.le_refl _)) fun close s4 _ => hbuild s4 close
  · exact Costs.bind (k + 4) (costs_pure _ (Nat.le_refl _)) fun close s4 _ => hbuild s4 close

/-- Skipping builds nothing. -/
theorem costs_skipToItem : Costs c s 4 k skipToItem k h := by
  unfold skipToItem
  refine Costs.bind k ?_ fun _ s1 _ => ?_
  · unfold Costs
    rw [post_advance]
    exact .next_any (Nat.le_refl k)
  · unfold Costs
    rw [post_advanceWhile]
    have hlength := (List.takeWhile_prefix (fun t : Token =>
      decide (t.kind ≠ .eof) && !startsItem t.kind) (l := s1.rest)).length_le
    refine ⟨?_, ?_, ?_, rfl, rfl⟩ <;>
      simp only [ParseState.skip, List.length_drop] <;> omega

/-- The items of a program cost what their tokens bring. -/
theorem itemsToEnd_costs (hh : h ≤ d) (fuel : Nat) (done : Array NodeId) (s : ParseState) :
    (itemsToEnd d fuel done).Post c s
      (fun xs s' => Spends 4 k k s s' ∧ xs.length ≤ done.size + fuel)
      (fun _ => Tight c 4 k h s) := by
  induction fuel generalizing done s with
  | zero => exact ⟨.same rfl rfl rfl (Nat.le_refl k), by simp⟩
  | succ fuel ih =>
    have hround (s1 : ParseState) (hs : Spends 4 k k s s1) (done' : Array NodeId)
        (hdone : done'.size ≤ done.size + 1) :=
      hs.round (ih done' s1) (show _ ≤ done.size + (fuel + 1) by omega)
    have hitem (hfront : (front c s).kind = .keyword .fnKw ∨
        (front c s).kind = .keyword .structKw ∨ (front c s).kind = .keyword .pubKw) :=
      item_costs (k := k) hfront hh
    unfold itemsToEnd
    rw [post_bind, post_current]
    split
    · exact ⟨.same rfl rfl rfl (Nat.le_refl k), by simp⟩
    iterate 3
      next hfront =>
        rw [post_bind]
        exact (hitem (by simp [hfront])).imp fun b s1 hs => hround s1 hs _ (by simp)
    iterate 2
      next hfront =>
        rw [post_bind]
        exact (importPath_costs (by simp [hfront])).imp fun b s1 hs => hround s1 hs _ (by simp)
    · rw [post_bind]
      refine (costs_fault _ _ (Nat.le_refl k)).imp fun _ s1 hs => ?_
      rw [post_bind]
      refine (costs_skipToItem (k := k) (h := h)).mono (fun _ s2 hs2 => ?_) fun _ ht => ?_
      · exact hround s2 (hs.trans hs2) done (by omega)
      · have hforward := hs.forward
        exact ht.before hs fun hd => by omega

/-- A program has at most one node more than four times its tokens. -/
theorem program_costs : Costs c s 4 1 program 0 c.maxDepth := by
  unfold program
  rw [costs_current]
  have hread {f : ParseSettings → Parser Built} (hf : Costs c s 4 1 (f c) 0 c.maxDepth) :
      Costs c s 4 1 (read >>= f) 0 c.maxDepth := by
    unfold Costs
    rw [post_bind, post_read]
    exact hf
  refine hread ?_
  rw [costs_rounds]
  refine Costs.bind_post 1 (itemsToEnd_costs (Nat.le_refl _) _ #[] s) fun items s1 _ hlength => ?_
  rw [costs_current]
  refine costs_build ?_ (Nat.le_refl _)
  simp only [Array.size_empty] at hlength
  simp only [NodeKind.children]
  omega

end

end Parser

/-! ### Tokens of a source -/

def EndsInEof (tokens : Array Token) : Prop :=
  ∃ (before : Array Token) (span : Span), tokens = before.push ⟨.eof, span⟩

namespace LexState

variable {maxTokens fuel : Nat} {s s' : LexState} {t : Token} {p : Piece} {ds : Diagnostics}

theorem push_ok_iff : s.push maxTokens t = .ok s' ↔
    s.tokens.size < maxTokens ∧ s' = { s with tokens := s.tokens.push t } := by
  unfold push
  split
  · next hfull => simp [Nat.not_lt.mpr hfull]
  · next hroom => simp [Nat.not_le.mp hroom, eq_comm]

theorem tokens_push (h : s.push maxTokens t = .ok s') : s'.tokens = s.tokens.push t := by
  rw [(push_ok_iff.mp h).2]

theorem full_of_push (h : s.push maxTokens t = .error ds) : maxTokens ≤ s.tokens.size := by
  unfold push at h
  split at h
  · next hfull => exact hfull
  · cases h

theorem size_read (h : read maxTokens p s = .ok s') : s'.tokens.size ≤ s.tokens.size + 1 := by
  unfold read at h
  dsimp only at h
  split at h
  · have hsize := congrArg Array.size (tokens_push h)
    rw [Array.size_push] at hsize
    exact Nat.le_of_eq hsize
  · cases h
    exact Nat.le_succ _

theorem full_of_read (h : read maxTokens p s = .error ds) : maxTokens ≤ s.tokens.size := by
  unfold read at h
  dsimp only at h
  split at h
  · have hfull := full_of_push h
    exact hfull
  · cases h

/-- A run reads piece after piece and then makes the closing token: what holds
at its end and is kept by one piece holds where it starts. -/
theorem run_induction {P : Nat → LexState → Prop}
    (hclose : ∀ fuel s, fuel = 0 ∨ Piece.atFront? s.rest = none →
      s.push maxTokens ⟨.eof, Span.between s.here s.here⟩ = .ok s' → P fuel s)
    (hpiece : ∀ fuel p s s1, Piece.atFront? s.rest = some p → read maxTokens p s = .ok s1 →
      P fuel s1 → P (fuel + 1) s)
    (h : run maxTokens fuel s = .ok s') : P fuel s := by
  induction fuel generalizing s with
  | zero => exact hclose 0 s (.inl rfl) h
  | succ fuel ih =>
    unfold run at h
    split at h
    · next hnone => exact hclose _ s (.inr hnone) h
    · next p hp =>
      cases hread : read maxTokens p s with
      | error ds => simp [hread, bind, Except.bind] at h
      | ok s1 =>
        rw [hread] at h
        exact hpiece fuel p s s1 hp hread (ih h)

/-- Each piece makes at most one token, and the end of the source makes one. -/
theorem tokens_run (h : run maxTokens fuel s = .ok s') :
    s'.tokens.size ≤ s.tokens.size + fuel + 1 ∧ EndsInEof s'.tokens := by
  refine run_induction (P := fun fuel s => s'.tokens.size ≤ s.tokens.size + fuel + 1 ∧ _) ?_ ?_ h
  · intro fuel s _ hpush
    have htokens := tokens_push hpush
    exact ⟨by rw [htokens, Array.size_push]; omega, _, _, htokens⟩
  · rintro fuel p s s1 - hread ⟨hsize, hend⟩
    have hone := size_read hread
    exact ⟨by omega, hend⟩

/-- A run fails only once the token limit is within reach. -/
theorem full_of_run (h : run maxTokens fuel s = .error ds) : maxTokens ≤ s.tokens.size + fuel := by
  induction fuel generalizing s with
  | zero => exact full_of_push h
  | succ fuel ih =>
    unfold run at h
    split at h
    · have hfull := full_of_push h
      omega
    · next p hp =>
      cases hread : read maxTokens p s with
      | error ds' =>
        have hfull := full_of_read hread
        omega
      | ok s1 =>
        rw [hread] at h
        have hfull := ih h
        have hone := size_read hread
        omega

end LexState

theorem length_bytes (src : String) : (Text.bytes src).length = src.utf8ByteSize := by
  rfl

theorem lex_ok_iff {src : String} {limits : Limits} {lexed : Lexed} :
    lex src limits = .ok lexed ↔
      ∃ s, LexState.run limits.clamped.maxTokens (Text.bytes src).length
        { rest := Text.bytes src } = .ok s ∧ lexed = ⟨s.tokens, s.names, s.diagnostics⟩ := by
  cases hrun : LexState.run limits.clamped.maxTokens (Text.bytes src).length
      { rest := Text.bytes src } with
  | error ds => simp [lex, hrun, bind, Except.bind]
  | ok s => simp [lex, hrun, bind, Except.bind, pure, Except.pure, eq_comm]

theorem lex_tokens {src : String} {limits : Limits} {lexed : Lexed}
    (h : lex src limits = .ok lexed) :
    lexed.tokens.size ≤ src.utf8ByteSize + 1 ∧ EndsInEof lexed.tokens := by
  obtain ⟨s, hrun, rfl⟩ := lex_ok_iff.mp h
  obtain ⟨hsize, hend⟩ := LexState.tokens_run hrun
  rw [length_bytes] at hsize
  exact ⟨by simpa using hsize, hend⟩

theorem lex_ok {src : String} {limits : Limits} (hsize : src.utf8ByteSize < 0x10000000)
    (htokens : src.utf8ByteSize + 1 ≤ limits.maxTokens) : ∃ lexed, lex src limits = .ok lexed := by
  cases hrun : LexState.run limits.clamped.maxTokens (Text.bytes src).length
      { rest := Text.bytes src } with
  | ok s => exact ⟨_, lex_ok_iff.mpr ⟨s, hrun, rfl⟩⟩
  | error ds =>
    have hfull := LexState.full_of_run hrun
    have hids : Limits.maxIds = 4294967295 := rfl
    simp only [length_bytes, Limits.clamped, List.size_toArray, List.length_nil] at hfull
    omega

/-! ### Programs of a token stream -/

section

variable {lexed : Lexed} {opts : Options} {parsed : Parsed}

theorem length_splitEof {tokens : Array Token} (h : EndsInEof tokens) :
    (splitEof tokens).1.length + 1 = tokens.size := by
  obtain ⟨before, span, rfl⟩ := h
  simp [splitEof]

/-- A program of `n` tokens, the closing one included, has fewer than `4 * n`
nodes. -/
theorem readProgram_size (hend : EndsInEof lexed.tokens)
    (h : readProgram lexed opts = .ok parsed) :
    parsed.ast.arena.size < 4 * lexed.tokens.size := by
  obtain ⟨root, s, hs, rfl⟩ := Parser.program_costs.of_readProgram h
  have hrest : (ParseState.ofStream lexed opts).rest.length + 1 = lexed.tokens.size :=
    length_splitEof hend
  have hempty : (ParseState.ofStream lexed opts).arena.size = 0 := rfl
  have hnodes := hs.nodes
  change s.arena.size < _
  omega

/-- With limits of this size against its tokens, a stream is always read. -/
theorem readProgram_ok (hend : EndsInEof lexed.tokens) (hmode : opts.mode = .lenient)
    (hnodes : 4 * lexed.tokens.size ≤ min opts.limits.maxNodes Limits.maxIds)
    (hchildren : lexed.tokens.size + 2 ≤ opts.limits.maxChildren)
    (hdepth : 2 * lexed.tokens.size ≤ opts.limits.maxDepth) :
    ∃ parsed, readProgram lexed opts = .ok parsed := by
  cases h : readProgram lexed opts with
  | ok parsed => exact ⟨parsed, rfl⟩
  | error ds =>
    have hrest : (ParseState.ofStream lexed opts).rest.length + 1 = lexed.tokens.size :=
      length_splitEof hend
    have hcount : (ParseSettings.ofStream lexed opts).tokenCount + 1 = lexed.tokens.size :=
      length_splitEof hend
    have hempty : (ParseState.ofStream lexed opts).arena.size = 0 := rfl
    have hmaxNodes : (ParseState.ofStream lexed opts).arena.maxNodes =
      min opts.limits.maxNodes Limits.maxIds := rfl
    have hmaxChildren : (ParseState.ofStream lexed opts).arena.maxChildren =
      opts.limits.maxChildren := rfl
    have hmaxDepth : (ParseSettings.ofStream lexed opts).maxDepth = opts.limits.maxDepth := rfl
    rcases Parser.program_costs.of_readProgram_error h with hstrict | htoomany | hwide | hdeep
    · cases hmode.symm.trans hstrict
    all_goals omega

theorem readProgram_of_parse (h : parse lexed opts = .ok parsed) :
    readProgram lexed opts = .ok parsed := by
  unfold parse at h
  cases hread : readProgram lexed opts with
  | error ds => simp [hread, bind, Except.bind] at h
  | ok parsed' =>
    simp only [hread, bind, Except.bind, Parsed.accept] at h
    split at h
    · cases h
    · exact h

theorem lexed_of_parseSource {src : String} (h : parseSource src opts = .ok parsed) :
    ∃ lexed, lex src opts.limits = .ok lexed ∧ readProgram lexed opts = .ok parsed := by
  cases hlex : lex src opts.limits with
  | error ds =>
    rw [parseSource_of_lex_error opts hlex] at h
    cases h
  | ok lexed =>
    rw [parseSource_of_lex_ok opts hlex] at h
    split at h
    · cases h
    · exact ⟨lexed, rfl, readProgram_of_parse h⟩

end

/-- With limits in proportion to the source, lenient compilation gives a
result whatever the source is: tokens are at most one more than its bytes, and
nodes at most four times the tokens. -/
theorem lenient_compilation_total :
    (∀ (src : String) (limits : Limits) (lexed : Lexed), lex src limits = .ok lexed →
      lexed.tokens.size ≤ src.utf8ByteSize + 1 ∧ EndsInEof lexed.tokens) ∧
    (∀ (lexed : Lexed) (opts : Options) (parsed : Parsed), EndsInEof lexed.tokens →
      parse lexed opts = .ok parsed → parsed.ast.arena.size ≤ 4 * lexed.tokens.size) ∧
    (∀ (src : String) (opts : Options), opts.mode = .lenient → src.utf8ByteSize < 0x10000000 →
      src.utf8ByteSize + 1 ≤ opts.limits.maxTokens →
      4 * src.utf8ByteSize + 8 ≤ opts.limits.maxNodes →
      4 * src.utf8ByteSize + 8 ≤ opts.limits.maxChildren →
      4 * src.utf8ByteSize + 8 ≤ opts.limits.maxDepth →
      ∃ result, compileSource src opts = .ok result) := by
  refine ⟨fun _ _ _ => lex_tokens, ?_, ?_⟩
  · intro lexed opts parsed hend hparse
    exact Nat.le_of_lt (readProgram_size hend (readProgram_of_parse hparse))
  · intro src opts hmode hsize htokens hnodes hchildren hdepth
    have hopts : opts.inMode .lenient = opts := by
      rw [← hmode]
      rfl
    obtain ⟨lexed, hlex⟩ := lex_ok hsize htokens
    obtain ⟨hcount, hend⟩ := lex_tokens hlex
    have hids : Limits.maxIds = 4294967295 := rfl
    obtain ⟨parsed, hread⟩ := readProgram_ok hend hmode (by omega) (by omega) (by omega)
    have hparsed : parseSource src opts = .ok parsed := by
      rw [← hopts, parseSource_lenient opts hlex, parse_lenient, hopts, hread]
    have hgen := generate_lenient opts parsed.ast
    rw [hopts] at hgen
    exact ⟨_, (compileSource_ok_iff opts).mpr ⟨parsed, _, hparsed, hgen, rfl⟩⟩

/-- A source that is nothing but faults, with limits just large enough. -/
theorem lenient_compilation_total_of_fault :
    ∃ result, compileSource "fn f(" ⟨.lenient, ⟨6, 28, 28, 28⟩, .embedded⟩ = .ok result :=
  lenient_compilation_total.2.2 "fn f(" ⟨.lenient, ⟨6, 28, 28, 28⟩, .embedded⟩ rfl
    (by decide) (by decide) (by decide) (by decide) (by decide)

end StagedCompiler
