import StagedCompiler.Proofs.Parser.EveryReader
import StagedCompiler.Proofs.Parser.Running

/-!
Statements that take no token. A reader of statements that comes back without
having moved met a token that can start nothing. It has reported that, made a
zero in the place of the missing expression and a statement around the zero,
and done nothing else; in strict mode it does not come back at all.
-/

namespace StagedCompiler.Parser

def Forward (α : Type) (p : Parser α) : Prop :=
  ∀ c s, p.Post c s (fun _ s' => s.consumed ≤ s'.consumed) fun _ => True

theorem forward_of_same {α : Type} {p : Parser α}
    (h : ∀ c s, p.Post c s (fun _ s' => s'.consumed = s.consumed) fun _ => True) : Forward α p := by
  intro c s
  apply (h c s).imp
  intro _ s' hsame
  exact Nat.le_of_eq hsame.symm

theorem forward_advance : Forward Unit advance := by
  intro c s
  rw [post_advance]
  cases hrest : s.rest with
  | nil => simp [ParseState.next, hrest]
  | cons t ts => simp [ParseState.next, hrest]

/-- Steps give no token back, so no reader does. -/
theorem forward_stepClosed : StepClosed Forward where
  pure a := forward_of_same fun _ _ => rfl
  bind hp hf := by
    intro c s
    rw [post_bind]
    apply (hp c s).imp
    intro a s1 h1
    apply (hf a c s1).imp
    intro _ s2 h2
    exact Nat.le_trans h1 h2
  current := forward_of_same fun _ _ => rfl
  peek n := forward_of_same fun _ _ => rfl
  advance := forward_advance
  advanceWhile skip := by
    intro c s
    rw [post_advanceWhile]
    exact Nat.le_add_right _ _
  fault f span := by
    apply forward_of_same
    intro c s
    rw [post_fault]
    exact ⟨fun _ => trivial, fun _ => rfl⟩
  intern text := forward_of_same fun _ _ => rfl
  resolve sym := forward_of_same fun _ _ => rfl
  build kind span := by
    apply forward_of_same
    intro c s
    rw [post_build]
    exact ⟨fun _ _ => trivial, fun _ => rfl⟩
  consumed := forward_of_same fun _ _ => rfl
  rounds := forward_of_same fun _ _ => rfl
  tooDeep := by
    intro α c s
    rw [post_tooDeep]
    trivial
  withMaxDepth hf := by
    intro c s
    rw [post_bind, post_read]
    exact hf c.maxDepth c s

/-- What is left after a missing expression: a report and a zero. -/
structure Fabricated (c : ParseSettings) (s : ParseState) (b : Built) (s' : ParseState) :
    Prop where
  lenient : c.mode = .lenient
  built : b = ⟨s.arena.size, .int 0, (front c s).span⟩
  arena : s'.arena = s.arena.append b.node
  rest : s'.rest = s.rest
  names : s'.names = s.names
  consumed : s'.consumed = s.consumed

structure Idle (c : ParseSettings) (s : ParseState) (b : Built) (s' : ParseState) : Prop where
  lenient : c.mode = .lenient
  arena : ∃ span span', b = ⟨s.arena.size + 1, .exprStmt s.arena.size, span'⟩ ∧
    s'.arena = (s.arena.append ⟨.int 0, span⟩).append b.node
  rest : s'.rest <:+ s.rest
  names : s'.names = s.names

/-- A reader that takes a token or leaves what `R` says. -/
def TakesOr {α : Type} (R : ParseSettings → ParseState → α → ParseState → Prop) (p : Parser α)
    (c : ParseSettings) (s : ParseState) : Prop :=
  p.Post c s (fun a s' => s.consumed < s'.consumed ∨ R c s a s') fun _ => True

section

variable {α β : Type} {c : ParseSettings} {s : ParseState} {p : Parser α} {f : α → Parser β}
  {R : ParseSettings → ParseState → α → ParseState → Prop}
  {R' : ParseSettings → ParseState → β → ParseState → Prop}

theorem TakesOr.of_taken (h : p.Post c s (fun _ s' => s.consumed < s'.consumed) fun _ => True) :
    TakesOr R p c s := by
  apply h.imp
  exact fun _ _ => .inl

/-- Once a token is taken it stays taken. -/
theorem TakesOr.bind (hp : TakesOr R p c s) (hforward : ∀ a, Forward β (f a))
    (hf : ∀ a s1, R c s a s1 → TakesOr (fun _ _ => R' c s) (f a) c s1)
    (hsame : ∀ a s1, R c s a s1 → s1.consumed = s.consumed) : TakesOr R' (p >>= f) c s := by
  unfold TakesOr
  rw [post_bind]
  apply Post.imp hp
  intro a s1 h1
  rcases h1 with htaken | hleft
  · apply (hforward a c s1).imp
    intro _ s2 h2
    exact .inl (Nat.lt_of_lt_of_le htaken h2)
  · apply Post.imp (hf a s1 hleft)
    intro b s2 h2
    rw [hsame a s1 hleft] at h2
    exact h2

theorem taken_bind (hp : p.Post c s (fun _ s' => s.consumed < s'.consumed) fun _ => True)
    (hf : ∀ a, Forward β (f a)) :
    (p >>= f).Post c s (fun _ s' => s.consumed < s'.consumed) fun _ => True := by
  rw [post_bind]
  apply hp.imp
  intro a s1 h1
  apply (hf a c s1).imp
  intro _ s2 h2
  exact Nat.lt_of_lt_of_le h1 h2

/-- A token that is not the closing one can be taken. -/
theorem taken_advance {f : Unit → Parser β} (hk : (front c s).kind ≠ .eof)
    (hf : ∀ a, Forward β (f a)) :
    (advance >>= f).Post c s (fun _ s' => s.consumed < s'.consumed) fun _ => True := by
  rw [post_bind, post_advance]
  apply (hf () c s.next).imp
  intro _ s1 h1
  rw [s.next_consumed (rest_ne_nil hk)] at h1
  exact h1

theorem taken_expect {k : TokenKind} {f : Span → Parser β} (hk : (front c s).kind = k)
    (hend : k ≠ .eof) (hf : ∀ a, Forward β (f a)) :
    (expect k >>= f).Post c s (fun _ s' => s.consumed < s'.consumed) fun _ => True := by
  rw [post_bind, post_expect, if_pos hk]
  apply (hf (front c s).span c s.next).imp
  intro _ s1 h1
  rw [s.next_consumed (rest_ne_nil (by rw [hk]; exact hend))] at h1
  exact h1

end

section

variable {c : ParseSettings} {s : ParseState} {nested operand bare : Parser Built}

/-- A primary that takes no token is a zero for a missing one. -/
theorem primary_takesOr (hnested : Forward Built nested) (inHeader : Bool) :
    TakesOr Fabricated (primary nested inHeader) c s := by
  have hclosed := forward_stepClosed
  unfold TakesOr primary
  rw [post_bind, post_current]
  split
  · next node hnode =>
    apply TakesOr.of_taken
    apply taken_advance (TokenKind.of_literal? hnode).1
    exact fun _ => hclosed.build _ _
  split
  · next sym hk =>
    apply TakesOr.of_taken
    apply taken_advance (by simp [hk])
    intro _
    apply hclosed.bind (closed_isAtStructBody hclosed)
    intro opened
    apply closed_ite
    · exact closed_structLiteral hclosed hnested _ _
    · exact hclosed.build _ _
  · next hk =>
    apply TakesOr.of_taken
    apply taken_advance (by simp [hk])
    intro _
    apply hclosed.bind hnested
    intro inner
    apply hclosed.bind (closed_expect hclosed _)
    exact fun _ => hclosed.pure _
  · next hk =>
    apply TakesOr.of_taken
    apply taken_expect hk (by simp)
    intro start
    apply hclosed.bind (closed_commaList hclosed _ hnested)
    intro elems
    apply hclosed.bind (closed_expect hclosed _)
    exact fun _ => hclosed.build _ _
  · rw [post_bind, post_fault]
    constructor
    · exact fun _ => trivial
    intro hlenient
    rw [post_build]
    constructor
    · exact fun _ _ => trivial
    · exact fun _ => .inr ⟨hlenient, rfl, rfl, rfl, rfl, rfl⟩

/-- A prefix takes a token, so only a bare operand can be missing. -/
theorem prefixed_takesOr (hoperand : Forward Built operand) (hbare : TakesOr Fabricated bare c s) :
    TakesOr Fabricated (prefixed operand bare) c s := by
  have hclosed := forward_stepClosed
  unfold TakesOr prefixed
  rw [post_bind, post_current]
  split
  · next hk =>
    apply TakesOr.of_taken
    apply taken_advance (by simp [hk])
    intro _
    apply hclosed.bind (closed_eat hclosed _)
    exact fun _ => closed_applyPrefix hclosed hoperand _ _
  · next hk =>
    apply TakesOr.of_taken
    apply taken_advance (by simp [hk])
    intro _
    apply hclosed.bind hclosed.current
    intro t
    apply hclosed.bind (closed_applyPrefix hclosed hoperand _ _)
    exact fun _ => hclosed.build _ _
  · split
    · next op hop =>
      apply TakesOr.of_taken
      apply taken_advance
      · intro hend
        rw [hend] at hop
        cases hop
      · exact fun _ => closed_applyPrefix hclosed hoperand _ _
    · exact hbare

def Unmoved (base : Built) (_ : ParseSettings) (s : ParseState) (b : Built) (s' : ParseState) :
    Prop :=
  b = base ∧ s' = s

/-- Each of the three continuations takes the token that announces it. -/
theorem postfixStep_taken (hnested : Forward Built nested) (base : Built)
    (hopens : opensPostfix (front c s).kind = true) :
    (postfixStep nested base).Post c s (fun _ s' => s.consumed < s'.consumed) fun _ => True := by
  have hclosed := forward_stepClosed
  unfold postfixStep
  rw [post_bind, post_current]
  split
  · next hk =>
    apply taken_advance (by simp [hk])
    intro _
    apply hclosed.bind (closed_commaList hclosed _ hnested)
    intro args
    apply hclosed.bind (closed_expect hclosed _)
    exact fun _ => hclosed.build _ _
  · next hk =>
    apply taken_advance (by simp [hk])
    intro _
    apply hclosed.bind hnested
    intro place
    apply hclosed.bind (closed_expect hclosed _)
    exact fun _ => hclosed.build _ _
  · next hk =>
    apply taken_advance (by simp [hk])
    intro _
    apply hclosed.bind (closed_expectIdent hclosed)
    exact fun _ => hclosed.build _ _
  · next hparen hbracket hdot =>
    unfold opensPostfix at hopens
    split at hopens
    · next hk => exact absurd hk hparen
    · next hk => exact absurd hk hbracket
    · next hk => exact absurd hk hdot
    · cases hopens

theorem postfixChain_takesOr (depth : Nat) (base : Built) :
    TakesOr (Unmoved base) (postfixChain depth base) c s := by
  have hclosed := forward_stepClosed
  unfold TakesOr
  cases depth with
  | zero =>
    unfold postfixChain
    rw [post_bind, post_current]
    split
    · rw [post_tooDeep]
      trivial
    · exact .inr ⟨rfl, rfl⟩
  | succ depth =>
    have hnested := closed_expr hclosed depth false
    unfold postfixChain
    rw [post_bind, post_current]
    split
    · next hopens =>
      apply TakesOr.of_taken
      apply taken_bind (postfixStep_taken hnested base hopens)
      exact fun whole => closed_postfixChain hclosed depth whole
    · exact .inr ⟨rfl, rfl⟩

/-- An operator takes a token; without one the chain is its first operand. -/
theorem infixChain_takesOr (depth : Nat) (inHeader : Bool) (least : Nat) (lhs : Built) :
    TakesOr (Unmoved lhs) (infixChain depth inHeader least lhs) c s := by
  have hclosed := forward_stepClosed
  unfold TakesOr
  cases depth with
  | zero =>
    unfold infixChain
    rw [post_bind, post_current]
    split
    · split
      · exact .inr ⟨rfl, rfl⟩
      · rw [post_tooDeep]
        trivial
    · exact .inr ⟨rfl, rfl⟩
  | succ depth =>
    unfold infixChain
    rw [post_bind, post_current]
    split
    · next precedence op hop =>
      split
      · exact .inr ⟨rfl, rfl⟩
      · apply TakesOr.of_taken
        apply taken_advance
        · intro hend
          rw [hend] at hop
          cases hop
        intro _
        apply hclosed.bind (closed_unary hclosed depth inHeader)
        intro first
        apply hclosed.bind (closed_infixChain hclosed depth inHeader _ first)
        intro rhs
        apply hclosed.bind (hclosed.build _ _)
        exact fun whole => closed_infixChain hclosed depth inHeader least whole
    · exact .inr ⟨rfl, rfl⟩

theorem unary_takesOr (depth : Nat) (inHeader : Bool) :
    TakesOr Fabricated (unary depth inHeader) c s := by
  have hclosed := forward_stepClosed
  cases depth with
  | zero =>
    unfold TakesOr unary
    rw [post_tooDeep]
    trivial
  | succ depth =>
    unfold unary
    apply prefixed_takesOr (closed_unary hclosed depth inHeader)
    apply (primary_takesOr (closed_expr hclosed depth false) inHeader).bind
    · exact fun base => closed_postfixChain hclosed depth base
    · intro base s1 hbase
      apply Post.imp (postfixChain_takesOr depth base)
      intro b s2 h2
      rcases h2 with htaken | ⟨rfl, rfl⟩
      · exact .inl htaken
      · exact .inr hbase
    · exact fun _ _ hbase => hbase.consumed

/-- An expression takes a token unless it is made up. -/
theorem expr_takesOr (depth : Nat) (inHeader : Bool) :
    TakesOr Fabricated (expr depth inHeader) c s := by
  unfold expr
  apply (unary_takesOr depth inHeader).bind
  · exact fun lhs => closed_infixChain forward_stepClosed depth inHeader 1 lhs
  · intro lhs s1 hlhs
    apply Post.imp (infixChain_takesOr depth inHeader 1 lhs)
    intro b s2 h2
    rcases h2 with htaken | ⟨rfl, rfl⟩
    · exact .inl htaken
    · exact .inr hlhs
  · exact fun _ _ hlhs => hlhs.consumed

/-- A statement that took no token holds the zero and nothing else. -/
theorem exprOrAssign_takesOr (depth : Nat) : TakesOr Idle (exprOrAssign depth) c s := by
  have hclosed := forward_stepClosed
  have hvalue (lhs : Built) (op : AssignOp) : Forward Built (do
      let value ← expr depth false
      let close ← expect (.punct .semicolon)
      build (.assign lhs.id op value.id) (lhs.span.to close)) := by
    apply hclosed.bind (closed_expr hclosed depth false)
    intro value
    apply hclosed.bind (closed_expect hclosed _)
    exact fun _ => hclosed.build _ _
  unfold exprOrAssign
  apply (expr_takesOr depth false).bind
  · intro lhs
    apply hclosed.bind hclosed.current
    intro t
    split
    · next op _ =>
      have hassign := hclosed.bind hclosed.advance fun _ => hvalue lhs op
      exact closed_ite _ (hclosed.bind (hclosed.fault _ _) fun _ => hassign) hassign
    · exact hclosed.bind (closed_expect hclosed _) fun _ => hclosed.build _ _
  · intro lhs s1 hlhs
    unfold TakesOr
    rw [post_bind, post_current]
    split
    · next op hop =>
      have hend : (front c s1).kind ≠ .eof := by
        intro hend
        rw [hend] at hop
        cases hop
      apply TakesOr.of_taken
      split
      · rw [post_bind, post_fault]
        constructor
        · exact fun _ => trivial
        intro _
        exact taken_advance hend fun _ => hvalue lhs op
      · exact taken_advance hend fun _ => hvalue lhs op
    · rw [post_bind, post_expect]
      split
      · next hk =>
        have htaken := s1.next_consumed (rest_ne_nil (c := c) (by rw [hk]; simp))
        rw [post_build]
        constructor
        · exact fun _ _ => trivial
        · exact fun _ => .inl (by rw [ParseState.grow, htaken]; exact Nat.lt_succ_self _)
      · rw [post_fault]
        constructor
        · exact fun _ => trivial
        intro hlenient
        rw [post_build]
        constructor
        · exact fun _ _ => trivial
        intro _
        right
        constructor
        · exact hlhs.lenient
        · refine ⟨(front c s).span, lhs.span.to (front c s1).span, ?_, ?_⟩
          · simp [ParseState.report, hlhs.arena, hlhs.built, Arena.size, Arena.append]
          · simp [ParseState.grow, ParseState.report, hlhs.arena, hlhs.built]
        · exact hlhs.rest ▸ List.suffix_rfl
        · exact hlhs.names
  · exact fun _ _ hlhs => hlhs.consumed

theorem block_taken {depth : Nat} (hk : (front c s).kind = .punct .lbrace) :
    (Parser.block depth).Post c s (fun _ s' => s.consumed < s'.consumed) fun _ => True := by
  have hclosed := forward_stepClosed
  cases depth with
  | zero =>
    unfold Parser.block
    rw [post_tooDeep]
    trivial
  | succ depth =>
    have hboth := closed_block_and_conditional hclosed depth
    unfold Parser.block braced
    apply taken_expect hk (by simp)
    intro start
    apply hclosed.bind hclosed.rounds
    intro fuel
    apply hclosed.bind (closed_stmtsUntil hclosed (closed_stmt hclosed depth hboth.1 hboth.2) _ _)
    intro stmts
    apply hclosed.bind (closed_expect hclosed _)
    exact fun _ => hclosed.build _ _

theorem conditional_taken {depth : Nat} (hk : (front c s).kind = .keyword .ifKw) :
    (Parser.conditional depth).Post c s (fun _ s' => s.consumed < s'.consumed) fun _ => True := by
  have hclosed := forward_stepClosed
  cases depth with
  | zero =>
    unfold Parser.conditional
    rw [post_tooDeep]
    trivial
  | succ depth =>
    have hboth := closed_block_and_conditional hclosed depth
    unfold Parser.conditional ifElse
    apply taken_expect hk (by simp)
    intro start
    apply hclosed.bind (closed_expr hclosed depth true)
    intro cond
    apply hclosed.bind hboth.1
    intro thenBranch
    apply hclosed.bind (closed_after hclosed _ _)
    · exact fun _ => hclosed.build _ _
    apply hclosed.bind (closed_isAt hclosed _)
    exact fun _ => closed_ite _ hboth.2 hboth.1

/-- The statements with a keyword in front take it, so only an expression can
be missing. -/
theorem stmt_takesOr (depth : Nat) :
    TakesOr Idle (Parser.stmt depth (Parser.block depth) (Parser.conditional depth)) c s := by
  have hclosed := forward_stepClosed
  have hblock := (closed_block_and_conditional hclosed depth).1
  unfold TakesOr Parser.stmt
  rw [post_bind, post_current]
  split
  · next hk =>
    apply TakesOr.of_taken
    apply taken_expect hk (by simp)
    intro start
    apply hclosed.bind (closed_eat hclosed _)
    intro mutable
    apply hclosed.bind (closed_expectIdent hclosed)
    intro name
    apply hclosed.bind (closed_after hclosed _ (closed_type hclosed depth))
    intro ty
    apply hclosed.bind (closed_after hclosed _ (closed_expr hclosed depth false))
    intro init
    apply hclosed.bind (closed_expect hclosed _)
    exact fun _ => hclosed.build _ _
  · next hk =>
    apply TakesOr.of_taken
    unfold returnStmt
    apply taken_advance (by simp [hk])
    intro _
    have hclose (value : Option Built) : Forward Built (do
        let close ← expect (.punct .semicolon)
        build (.returnStmt (value.map (·.id))) ((front c s).span.to close)) :=
      hclosed.bind (closed_expect hclosed _) fun _ => hclosed.build _ _
    apply hclosed.bind (closed_isAt hclosed _)
    intro atSemicolon
    apply hclosed.bind (closed_isAt hclosed _)
    intro atBrace
    apply closed_ite
    · exact hclosed.bind (hclosed.pure _) fun _ => hclose _
    · rw [← bind_pure_comp]
      apply hclosed.bind _ fun _ => hclose _
      exact hclosed.bind (closed_expr hclosed depth false) fun _ => hclosed.pure _
  · next hk => exact TakesOr.of_taken (conditional_taken hk)
  · next hk =>
    apply TakesOr.of_taken
    apply taken_advance (by simp [hk])
    intro _
    apply hclosed.bind (closed_expr hclosed depth true)
    intro cond
    apply hclosed.bind hblock
    exact fun _ => hclosed.build _ _
  · next hk =>
    apply TakesOr.of_taken
    apply taken_advance (by simp [hk])
    intro _
    apply hclosed.bind (closed_expectIdent hclosed)
    intro var
    apply hclosed.bind (closed_expect hclosed _)
    intro _
    apply hclosed.bind (closed_expr hclosed depth true)
    intro iter
    apply hclosed.bind hblock
    exact fun _ => hclosed.build _ _
  · next hk =>
    apply TakesOr.of_taken
    apply taken_advance (by simp [hk])
    intro _
    apply hclosed.bind (closed_expect hclosed _)
    exact fun _ => hclosed.build _ _
  · next hk =>
    apply TakesOr.of_taken
    apply taken_advance (by simp [hk])
    intro _
    apply hclosed.bind (closed_expect hclosed _)
    exact fun _ => hclosed.build _ _
  · next hk => exact TakesOr.of_taken (block_taken hk)
  · exact exprOrAssign_takesOr depth

/-- A statement that took no token is a zero with a statement around it. -/
theorem idle_of_run {depth : Nat} {b : Built} {s' : ParseState}
    (hrun : Parser.stmt depth (Parser.block depth) (Parser.conditional depth) c s = .ok (b, s'))
    (hsame : s'.consumed = s.consumed) : Idle c s b s' := by
  have hstmt :
      TakesOr Idle (Parser.stmt depth (Parser.block depth) (Parser.conditional depth)) c s :=
    stmt_takesOr depth
  rcases hstmt.of_ok hrun with htaken | hidle
  · rw [hsame] at htaken
    exact absurd htaken (Nat.lt_irrefl _)
  · exact hidle

/-! ### What blocks drop -/

/-- A block passes over the statement `b` and the token that stood in its way:
the statement was read without taking a token, and a round that starts here
only moves on. -/
structure Drops (stmt : Parser Built) (c : ParseSettings) (s : ParseState) (b : Built)
    (s' : ParseState) : Prop where
  passes : ∃ s1, stmt c s = .ok (b, s1) ∧ s1.consumed = s.consumed ∧ s' = s1.next
  round : ∀ (fuel : Nat) (done : Array NodeId),
    stmtsUntil stmt (fuel + 1) done c s = stmtsUntil stmt fuel done c s'

/-- A round whose statement took no token only drops the token in its way. -/
theorem drops_of_run {stmt : Parser Built} {b : Built} {s' : ParseState}
    (hclose : (front c s).kind ≠ .punct .rbrace) (hend : (front c s).kind ≠ .eof)
    (hlone : (front c s).kind ≠ .punct .semicolon) (hrun : stmt c s = .ok (b, s'))
    (hsame : s'.consumed = s.consumed) : Drops stmt c s b s'.next := by
  constructor
  · exact ⟨s', hrun, hsame, rfl⟩
  · intro fuel done
    have hat (k : TokenKind) : isAt k c s = .ok (decide ((front c s).kind = k), s) := rfl
    have hcount (s : ParseState) : consumed c s = .ok (s.consumed, s) := rfl
    have heat : eat (.punct .semicolon) c s = .ok (false, s) := by
      unfold eat
      rw [run_bind, hat, decide_eq_false hlone]
      rfl
    rw [stmtsUntil, run_bind, hat, decide_eq_false hclose]
    simp only [Bool.false_or]
    rw [run_bind, hat, decide_eq_false hend]
    simp only [Bool.false_eq_true, if_false]
    rw [run_bind, heat]
    simp only [Bool.false_eq_true, if_false]
    rw [run_bind, hcount]
    simp only
    rw [run_bind, hrun]
    simp only
    rw [run_bind, hcount]
    simp only [hsame, if_true]
    rw [run_bind, run_advance]

theorem Drops.idle {depth : Nat} {b : Built} {s' : ParseState}
    (h : Drops (Parser.stmt depth (Parser.block depth) (Parser.conditional depth)) c s b s') :
    Idle c s b s' := by
  obtain ⟨s1, hrun, hsame, rfl⟩ := h.passes
  have hidle := idle_of_run hrun hsame
  constructor
  · exact hidle.lenient
  · rw [ParseState.next_arena]
    exact hidle.arena
  · rw [ParseState.next_rest]
    exact (List.tail_suffix _).trans hidle.rest
  · rw [ParseState.next_names]
    exact hidle.names

end

end StagedCompiler.Parser
