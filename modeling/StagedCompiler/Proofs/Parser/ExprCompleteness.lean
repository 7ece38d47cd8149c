import StagedCompiler.Proofs.Parser.ExprSoundness

/-!
What the grammar derives, the readers of expressions accept, unless a limit is
exceeded. A chain is read from left to right while its derivation nests to the
left, so the statements about chains speak of what the chain does next: after
the tokens of a derivation the reader is where it would be had it been started
behind them on the finished tree. Each rule of the grammar has its own lemma,
and the induction over derivations only puts them together.
-/

namespace StagedCompiler.Parser

open Grammar

variable {c : ParseSettings} {names : Interner}

def LimitHit (ds : Diagnostics) : Prop :=
  ∃ d, ds.back? = some d ∧ d.isCapacity = true

theorem limitHit_push (ds : Diagnostics) (e : Exceeded) (span : Span) :
    LimitHit (ds.push (e.diagnostic span)) :=
  ⟨e.diagnostic span, by simp, rfl⟩

def headKind (ts : List Token) : TokenKind :=
  (ts.head?.map Token.kind).getD .eof

theorem front_kind (c : ParseSettings) (s : ParseState) : (front c s).kind = headKind s.rest := by
  cases hrest : s.rest <;> simp [front, headKind, hrest]

/-- The names are the ones at hand, and no repetition can run out of rounds. -/
structure Ready (c : ParseSettings) (names : Interner) (s : ParseState) : Prop where
  names : s.names = names
  rounds : s.rest.length ≤ c.tokenCount

theorem Ready.later {s s' : ParseState} {ts : List Token} (h : Ready c names s)
    (took : Took s s' ts) : Ready c names s' where
  names := took.names.trans h.names
  rounds := by
    have hle := h.rounds
    rw [took.rest, List.length_append] at hle
    omega

theorem Took.rest_eq {s s' : ParseState} {ts us : List Token} (took : Took s s' ts)
    (h : s.rest = ts ++ us) : s'.rest = us := by
  have hrest := took.rest
  rw [h] at hrest
  exact (List.append_cancel_left hrest).symm

section

variable {s : ParseState} {E : Diagnostics → Prop} {t : Token} {ts : List Token}

theorem post_expect_head {k : TokenKind} {Q : Span → ParseState → Prop}
    (hrest : s.rest = t :: ts) (hk : t.kind = k) (h : Q t.span s.next) :
    (expect k).Post c s Q E := by
  rw [post_expect, front_of_rest hrest, if_pos hk]
  exact h

theorem post_expectIdent_head {sym : Symbol} {Q : Symbol × Span → ParseState → Prop}
    (hrest : s.rest = t :: ts) (hk : t.kind = .ident sym) (h : Q (sym, t.span) s.next) :
    expectIdent.Post c s Q E := by
  rw [post_expectIdent, front_of_rest hrest]
  refine ⟨fun sym' hsym => ?_, fun hno => absurd hk (hno sym)⟩
  rw [hk] at hsym
  cases hsym
  exact h

/-- What a reader takes up to a closing token, and that token. -/
theorem post_closed {α β : Type} {item : Parser α} {k : TokenKind} {next : α → Span → Parser β}
    {Meaning : ParseState → α → Prop} {Q : β → ParseState → Prop} {rest : List Token}
    (hitem : item.Post c s (fun a s' => Took s s' ts ∧ Meaning s' a) E)
    (later : ∀ s₁ s₂ us a, Meaning s₁ a → Took s₁ s₂ us → Meaning s₂ a)
    (hrest : s.rest = ts ++ t :: rest) (hk : t.kind = k)
    (h : ∀ a s', Took s s' (ts ++ [t]) → Meaning s' a → (next a t.span).Post c s' Q E) :
    (item >>= fun a => expect k >>= next a).Post c s Q E := by
  rw [post_bind]
  refine hitem.imp ?_
  rintro a s₁ ⟨took, hmeaning⟩
  have hrest₁ : s₁.rest = t :: rest := took.rest_eq hrest
  have tookClose : Took s₁ s₁.next [t] := Took.head hrest₁
  rw [post_bind]
  refine post_expect_head hrest₁ hk ?_
  exact h a s₁.next (took.trans tookClose) (later _ _ _ _ hmeaning tookClose)

end

/-- A chain whose next operator binds too loosely, or that has none, is done. -/
theorem infixChain_stop {depth least : Nat} {inHeader : Bool} {b : Built} {s : ParseState}
    {Q : Built → ParseState → Prop} {E : Diagnostics → Prop} (hstops : StopsBelow c s least)
    (h : Q b s) : (infixChain depth inHeader least b).Post c s Q E := by
  cases depth with
  | zero =>
    unfold infixChain
    rw [post_bind, post_current]
    split
    · next p op hop =>
      rw [if_pos (hstops p op hop)]
      exact h
    · exact h
  | succ depth =>
    unfold infixChain
    rw [post_bind, post_current]
    split
    · next p op hop =>
      rw [if_pos (hstops p op hop)]
      exact h
    · exact h

/-- A chain of postfix operations ends where none follows. -/
theorem postfixChain_stop {depth : Nat} {b : Built} {s : ParseState}
    {Q : Built → ParseState → Prop} {E : Diagnostics → Prop}
    (hstops : opensPostfix (front c s).kind = false) (h : Q b s) :
    (postfixChain depth b).Post c s Q E := by
  cases depth with
  | zero =>
    unfold postfixChain
    rw [post_bind, post_current, hstops]
    exact h
  | succ depth =>
    unfold postfixChain
    rw [post_bind, post_current, hstops]
    exact h

/-- An operand is read as its derivation says, if nothing behind it goes on
with it. -/
def OperandRead (c : ParseSettings) (names : Interner) (inHeader : Bool) (ts : List Token)
    (t : Tree) : Prop :=
  ∀ depth s rest, Ready c names s → s.rest = ts ++ rest →
    ¬ ContinuesOperand inHeader (headKind rest) →
    (unary depth inHeader).Post c s (fun b s' => Took s s' ts ∧ Denotes s' b t) LimitHit

/-- Reading a chain through the tokens of a derivation comes to going on with
the tree behind them. -/
def InfixRead (c : ParseSettings) (names : Interner) (inHeader : Bool) (level : Nat)
    (ts : List Token) (t : Tree) : Prop :=
  ∀ depth least s rest (Q : Built → ParseState → Prop), Ready c names s → least ≤ level →
    s.rest = ts ++ rest → ¬ ContinuesOperand inHeader (headKind rest) →
    (∀ p op, (headKind rest).infixOp? = some (p, op) → p ≤ level) →
    (∀ d b s', Took s s' ts → Denotes s' b t →
      (infixChain d inHeader least b).Post c s' Q LimitHit) →
    (do infixChain depth inHeader least (← unary depth inHeader) : Parser Built).Post c s Q
      LimitHit

/-- The same for chains of postfix operations. -/
def PostfixedRead (c : ParseSettings) (names : Interner) (inHeader : Bool) (ts : List Token)
    (t : Tree) : Prop :=
  ∀ depth s rest (Q : Built → ParseState → Prop), Ready c names s → s.rest = ts ++ rest →
    ¬ ContinuesName inHeader (headKind rest) →
    (∀ d b s', Took s s' ts → Denotes s' b t → (postfixChain d b).Post c s' Q LimitHit) →
    (do postfixChain depth (← primary (expr depth false) inHeader) : Parser Built).Post c s Q
      LimitHit

def PrimaryRead (c : ParseSettings) (names : Interner) (inHeader : Bool) (ts : List Token)
    (t : Tree) : Prop :=
  ∀ depth s rest, Ready c names s → s.rest = ts ++ rest →
    ¬ ContinuesName inHeader (headKind rest) →
    (primary (expr depth false) inHeader).Post c s
      (fun b s' => Took s s' ts ∧ Denotes s' b t) LimitHit

section

variable {inHeader : Bool} {level : Nat} {ts : List Token} {t : Tree}

/-- A whole expression, if nothing behind it goes on with it. -/
theorem InfixRead.whole (h : InfixRead c names inHeader 1 ts t) (depth : Nat) {s : ParseState}
    {rest : List Token} (ready : Ready c names s) (hrest : s.rest = ts ++ rest)
    (hend : ¬ Continues inHeader (headKind rest)) :
    (expr depth inHeader).Post c s (fun b s' => Took s s' ts ∧ Denotes s' b t) LimitHit := by
  have hnone : (headKind rest).infixOp? = none :=
    Option.eq_none_iff_forall_ne_some.mpr fun r h => hend (.inl ⟨r.1, r.2, infixSign_iff.mpr h⟩)
  refine h depth 1 s rest _ ready (Nat.le_refl 1) hrest (fun h => hend (.inr h)) ?_ ?_
  · intro p op hop
    rw [hnone] at hop
    cases hop
  · intro d b s' took hb
    refine infixChain_stop ?_ ⟨took, hb⟩
    intro p op hop
    rw [front_kind, took.rest_eq hrest, hnone] at hop
    cases hop

theorem InfixRead.operand (h : OperandRead c names inHeader ts t) :
    InfixRead c names inHeader 12 ts t := by
  intro depth least s rest Q ready hle hrest hend hlooser hgo
  rw [post_bind]
  refine (h depth s rest ready hrest hend).imp ?_
  rintro b s' ⟨took, hb⟩
  exact hgo depth b s' took hb

theorem InfixRead.tighter (h : InfixRead c names inHeader (level + 1) ts t) :
    InfixRead c names inHeader level ts t := by
  intro depth least s rest Q ready hle hrest hend hlooser hgo
  refine h depth least s rest Q ready (by omega) hrest hend ?_ hgo
  intro p op hop
  have hp := hlooser p op hop
  omega

/-- A sign of the infix table goes on with no operand. -/
theorem not_continuesOperand_of_infixOp {kind : TokenKind} {r : Nat × InfixOp}
    (h : kind.infixOp? = some r) : ¬ ContinuesOperand inHeader kind := by
  rintro (hk | hk | hk | ⟨-, hk⟩) <;> simp [hk, TokenKind.infixOp?, Punct.infixOp?] at h

/-- Behind an operator the right side is read with the next tighter level. -/
theorem InfixRead.join {ls rs : List Token} {sign : Token} {op : InfixOp} {lhs rhs : Tree}
    (hop : sign.kind.infixOp? = some (level, op)) (hl : InfixRead c names inHeader level ls lhs)
    (hr : InfixRead c names inHeader (level + 1) rs rhs) :
    InfixRead c names inHeader level (ls ++ sign :: rs)
      (.node (op.node lhs rhs) (lhs.span.to rhs.span)) := by
  intro depth least s rest Q ready hle hrest hend hlooser hgo
  have hrest' : s.rest = ls ++ sign :: (rs ++ rest) := by simpa using hrest
  refine hl depth least s _ Q ready hle hrest' (not_continuesOperand_of_infixOp hop) ?_ ?_
  · intro p op' hop'
    have heq : (level, op) = (p, op') := Option.some.inj (hop.symm.trans hop')
    cases heq
    exact Nat.le_refl _
  · intro d b s₁ took hb
    have hrest₁ : s₁.rest = sign :: (rs ++ rest) := took.rest_eq hrest'
    cases d with
    | zero =>
      unfold infixChain
      rw [post_bind, post_current, front_of_rest hrest₁, hop]
      simp only [Nat.not_lt.mpr hle, if_false]
      rw [post_tooDeep]
      exact limitHit_push _ _ _
    | succ d =>
      unfold infixChain
      rw [post_bind, post_current, front_of_rest hrest₁, hop]
      simp only [Nat.not_lt.mpr hle, if_false]
      rw [post_bind, post_advance]
      have tookSign : Took s₁ s₁.next [sign] := Took.head hrest₁
      have hrest₂ : s₁.next.rest = rs ++ rest := tookSign.rest_eq hrest₁
      have hchain := hr d (level + 1) s₁.next rest
        (fun x s₂ => (do
          let whole ← build (op.node b.id x.id) (b.span.to x.span)
          infixChain d inHeader least whole : Parser Built).Post c s₂ Q LimitHit)
        ((ready.later took).later tookSign) (Nat.le_refl _) hrest₂ hend
        (fun p op hop => Nat.le_succ_of_le (hlooser p op hop)) ?_
      · rw [post_bind] at hchain ⊢
        refine hchain.imp fun operand s₀ hrun => ?_
        rw [post_bind]
        exact hrun
      · intro d' x s₂ tookRight hx
        have tookAll := took.trans (tookSign.trans tookRight)
        refine infixChain_stop ?_ ?_
        · intro p op' hop'
          rw [front_kind, tookRight.rest_eq hrest₂] at hop'
          exact Nat.lt_succ_of_le (hlooser p op' hop')
        · rw [post_bind]
          refine post_build_tree (fun e => limitHit_push _ e _) fun whole s₃ grown hwhole => ?_
          have hb' : Denotes s₂ b lhs := hb.later (tookSign.trans tookRight)
          rw [InfixOp.node_map, hb'.lookup, hx.lookup, hb.span, hx.span] at hwhole
          refine hgo d whole s₃ ?_ hwhole
          simpa using tookAll.trans grown

theorem post_unary_zero {s : ParseState} {Q : Built → ParseState → Prop} :
    (unary 0 inHeader).Post c s Q LimitHit := by
  unfold unary
  rw [post_tooDeep]
  exact limitHit_push _ _ _

/-- An operand that starts like a primary has no prefix. -/
theorem OperandRead.bare (hstart : FirstIs StartsPrimary ts)
    (h : PostfixedRead c names inHeader ts t) : OperandRead c names inHeader ts t := by
  intro depth s rest ready hrest hend
  cases depth with
  | zero => exact post_unary_zero
  | succ depth =>
    have hbare := h depth s rest (fun b s' => Took s s' ts ∧ Denotes s' b t) ready hrest
      (fun h => hend (.inr (.inr (.inr h)))) ?_
    · obtain ⟨first, more, rfl, hfirst⟩ := hstart
      unfold unary prefixed
      rw [post_bind, post_current, front_of_rest hrest]
      split
      · next hk => simp [hk, StartsPrimary] at hfirst
      · next hk => simp [hk, StartsPrimary] at hfirst
      · split
        · next op hop =>
          unfold prefixOp? at hop
          split at hop <;> simp_all [StartsPrimary]
        · exact hbare
    · intro d b s' took hb
      refine postfixChain_stop ?_ ⟨took, hb⟩
      rw [front_kind, took.rest_eq hrest]
      unfold opensPostfix
      split
      · next hk => exact absurd (.inl hk) hend
      · next hk => exact absurd (.inr (.inl hk)) hend
      · next hk => exact absurd (.inr (.inr (.inl hk))) hend
      · rfl

/-- The node of a prefix operator, over the operand that follows. -/
theorem OperandRead.applyPrefix (h : OperandRead c names inHeader ts t) (depth : Nat)
    (op : UnaryOp) (start : Span) {s : ParseState} {rest : List Token}
    (ready : Ready c names s) (hrest : s.rest = ts ++ rest)
    (hend : ¬ ContinuesOperand inHeader (headKind rest)) :
    (applyPrefix (unary depth inHeader) op start).Post c s
      (fun b s' => Took s s' ts ∧ Denotes s' b (.node (.unary op t) (start.to t.span)))
      LimitHit := by
  unfold Parser.applyPrefix
  rw [post_bind]
  refine (h depth s rest ready hrest hend).imp ?_
  rintro x s₁ ⟨took, hx⟩
  refine post_build_tree (fun e => limitHit_push _ e _) fun b s₂ grown hb => ?_
  rw [NodeKind.map, hx.lookup, hx.span] at hb
  exact ⟨by simpa using took.trans grown, hb⟩

/-- An operator of one token that is no ampersand. -/
theorem OperandRead.oneSign {sign : Token} {op : UnaryOp} (hop : prefixOp? sign.kind = some op)
    (h : OperandRead c names inHeader ts t) :
    OperandRead c names inHeader (sign :: ts) (.node (.unary op t) (sign.span.to t.span)) := by
  intro depth s rest ready hrest hend
  cases depth with
  | zero => exact post_unary_zero
  | succ depth =>
    have tookSign : Took s s.next [sign] := Took.head hrest
    unfold unary prefixed
    rw [post_bind, post_current, front_of_rest hrest]
    split
    · next hk => simp [hk, prefixOp?] at hop
    · next hk => simp [hk, prefixOp?] at hop
    · rw [hop, post_bind, post_advance]
      refine (h.applyPrefix depth op sign.span (ready.later tookSign)
        (tookSign.rest_eq hrest) hend).imp ?_
      rintro b s' ⟨took, hb⟩
      exact ⟨tookSign.trans took, hb⟩

theorem OperandRead.ref {sign : Token} (hamp : sign.kind = .punct .amp)
    (hstart : FirstIs StartsExpr ts) (h : OperandRead c names inHeader ts t) :
    OperandRead c names inHeader (sign :: ts) (.node (.unary .ref t) (sign.span.to t.span)) := by
  intro depth s rest ready hrest hend
  cases depth with
  | zero => exact post_unary_zero
  | succ depth =>
    have tookSign : Took s s.next [sign] := Took.head hrest
    have hnext : s.next.rest = ts ++ rest := tookSign.rest_eq hrest
    have hnoMut : (front c s.next).kind ≠ .keyword .mutKw := by
      obtain ⟨first, more, rfl, hfirst⟩ := hstart
      rw [front_of_rest hnext]
      intro hk
      simp [hk, StartsExpr, StartsPrimary] at hfirst
    unfold unary prefixed
    rw [post_bind, post_current, front_of_rest hrest]
    simp only [hamp]
    rw [post_bind, post_advance, post_bind, post_eat, if_neg hnoMut]
    refine (h.applyPrefix depth .ref sign.span (ready.later tookSign) hnext hend).imp ?_
    rintro b s' ⟨took, hb⟩
    exact ⟨tookSign.trans took, hb⟩

theorem OperandRead.refMut {sign word : Token} (hamp : sign.kind = .punct .amp)
    (hmut : word.kind = .keyword .mutKw) (h : OperandRead c names inHeader ts t) :
    OperandRead c names inHeader (sign :: word :: ts)
      (.node (.unary .refMut t) (sign.span.to t.span)) := by
  intro depth s rest ready hrest hend
  cases depth with
  | zero => exact post_unary_zero
  | succ depth =>
    have tookSign : Took s s.next [sign] := Took.head hrest
    have hnext : s.next.rest = word :: (ts ++ rest) := tookSign.rest_eq hrest
    have tookWord : Took s.next s.next.next [word] := Took.head hnext
    have tookBoth := tookSign.trans tookWord
    unfold unary prefixed
    rw [post_bind, post_current, front_of_rest hrest]
    simp only [hamp]
    rw [post_bind, post_advance, post_bind, post_eat, front_of_rest hnext, if_pos hmut]
    refine (h.applyPrefix depth .refMut sign.span (ready.later tookBoth)
      (tookBoth.rest_eq hrest) hend).imp ?_
    rintro b s' ⟨took, hb⟩
    exact ⟨tookBoth.trans took, hb⟩

/-- Two ampersands in one token are two references. -/
theorem OperandRead.refRef {both next : Token} {inner : Tree}
    (hboth : both.kind = .punct .andAnd) (h : OperandRead c names inHeader (next :: ts) t)
    (hinner : inner = .node (.unary .ref t) (next.span.to t.span)) :
    OperandRead c names inHeader (both :: next :: ts)
      (.node (.unary .ref inner) (both.span.to inner.span)) := by
  intro depth s rest ready hrest hend
  cases depth with
  | zero => exact post_unary_zero
  | succ depth =>
    have tookBoth : Took s s.next [both] := Took.head hrest
    have hnext : s.next.rest = next :: ts ++ rest := tookBoth.rest_eq hrest
    unfold unary prefixed
    rw [post_bind, post_current, front_of_rest hrest]
    simp only [hboth]
    rw [post_bind, post_advance, post_bind, post_current, front_of_rest hnext, post_bind]
    refine (h.applyPrefix depth .ref next.span (ready.later tookBoth) hnext hend).imp ?_
    rintro x s₁ ⟨took, hx⟩
    refine post_build_tree (fun e => limitHit_push _ e _) fun b s₂ grown hb => ?_
    rw [NodeKind.map, hx.lookup, hx.span, ← hinner] at hb
    exact ⟨by simpa using tookBoth.trans (took.trans grown), hb⟩

/-- Prefix operators that build one node, whatever their tokens. -/
theorem OperandRead.sign {first : Token} {more : List Token} {op : UnaryOp}
    (hsign : Prefix (first.kind :: more.map (·.kind)) op) (hstart : FirstIs StartsExpr ts)
    (h : OperandRead c names inHeader ts t) :
    OperandRead c names inHeader (first :: (more ++ ts))
      (.node (.unary op t) (first.span.to t.span)) := by
  generalize hkinds : first.kind :: more.map (·.kind) = kinds at hsign
  cases hsign with
  | not =>
    obtain ⟨hk, rfl⟩ : first.kind = .punct .bang ∧ more = [] := by simpa using hkinds
    exact h.oneSign (by rw [hk]; rfl)
  | neg =>
    obtain ⟨hk, rfl⟩ : first.kind = .punct .minus ∧ more = [] := by simpa using hkinds
    exact h.oneSign (by rw [hk]; rfl)
  | deref =>
    obtain ⟨hk, rfl⟩ : first.kind = .punct .star ∧ more = [] := by simpa using hkinds
    exact h.oneSign (by rw [hk]; rfl)
  | ref =>
    obtain ⟨hk, rfl⟩ : first.kind = .punct .amp ∧ more = [] := by simpa using hkinds
    exact h.ref hk hstart
  | refMut =>
    obtain ⟨hk, word, rfl, hw⟩ :
        first.kind = .punct .amp ∧ ∃ word, more = [word] ∧ word.kind = .keyword .mutKw := by
      simpa [List.map_eq_cons_iff] using hkinds
    exact h.refMut hk hw

end

section

variable {α γ : Type} {item : Parser α} {Meaning : ParseState → α → γ → Prop}
  {close : TokenKind}

/-- An element of a list is read as its derivation says, in front of a comma or
of what closes the list. -/
def ElementRead (c : ParseSettings) (names : Interner) (close : TokenKind) (item : Parser α)
    (Meaning : ParseState → α → γ → Prop) (ts : List Token) (x : γ) : Prop :=
  FirstIs StartsExpr ts ∧ ∀ s rest, Ready c names s → s.rest = ts ++ rest →
    headKind rest = .punct .comma ∨ headKind rest = close →
    item.Post c s (fun a s' => Took s s' ts ∧ Meaning s' a x) LimitHit

/-- In front of an element a list is at no end. -/
theorem not_at_end (hclose : ¬ StartsExpr close) {s : ParseState} {ts rest : List Token}
    (hstart : FirstIs StartsExpr ts) (hrest : s.rest = ts ++ rest) :
    (decide ((front c s).kind = close) || decide ((front c s).kind = .eof)) = false := by
  obtain ⟨first, more, rfl, hfirst⟩ := hstart
  rw [front_of_rest hrest]
  simp only [Bool.or_eq_false_iff, decide_eq_false_iff_not]
  refine ⟨?_, ?_⟩
  · intro hk
    rw [hk] at hfirst
    exact hclose hfirst
  · intro hk
    rw [hk] at hfirst
    exact hfirst

/-- A list is read as its derivation says, given enough rounds. -/
theorem itemsUntil_complete (hclose : ¬ StartsExpr close) (hcomma : close ≠ .punct .comma)
    (later : ∀ s s' ts a x, Meaning s a x → Took s s' ts → Meaning s' a x)
    {ts : List Token} {xs : List γ}
    (h : CommaSeparated (ElementRead c names close item Meaning) ts xs) (fuel : Nat)
    (done : Array α) (s : ParseState) (rest : List Token) (hfuel : ts.length < fuel)
    (ready : Ready c names s) (hrest : s.rest = ts ++ rest) (hend : headKind rest = close) :
    (itemsUntil close item fuel done).Post c s
      (fun as s' => ∃ new, as = done.toList ++ new ∧ Took s s' ts ∧
        List.Forall₂ (Meaning s') new xs) LimitHit := by
  induction h generalizing fuel done s with
  | nil =>
    obtain ⟨fuel, rfl⟩ : ∃ n, fuel = n + 1 := ⟨fuel - 1, by omega⟩
    unfold itemsUntil
    rw [post_bind, post_isAt, post_bind, post_isAt, front_kind, hrest]
    simp only [List.nil_append, hend, decide_true, Bool.true_or, if_true]
    exact ⟨[], by simp, Took.refl s, .nil⟩
  | @last ts x helem =>
    obtain ⟨fuel, rfl⟩ : ∃ n, fuel = n + 1 := ⟨fuel - 1, by omega⟩
    unfold itemsUntil
    rw [post_bind, post_isAt, post_bind, post_isAt]
    simp only [not_at_end hclose helem.1 hrest, Bool.false_eq_true, if_false]
    rw [post_bind]
    refine (helem.2 s rest ready hrest (.inr hend)).imp ?_
    rintro a s₁ ⟨took, hmean⟩
    have hfront : (front c s₁).kind ≠ .punct .comma := by
      rw [front_kind, took.rest_eq hrest, hend]
      exact hcomma
    rw [post_bind, post_eat, if_neg hfront]
    exact ⟨[a], by simp, took, .cons hmean .nil⟩
  | @more ts us comma x xs helem hkind _ ih =>
    have hlength : us.length + 1 < fuel := by
      simp only [List.length_append, List.length_cons] at hfuel
      omega
    obtain ⟨fuel, rfl⟩ : ∃ n, fuel = n + 1 := ⟨fuel - 1, by omega⟩
    have hrest' : s.rest = ts ++ comma :: (us ++ rest) := by simpa using hrest
    unfold itemsUntil
    rw [post_bind, post_isAt, post_bind, post_isAt]
    simp only [not_at_end hclose helem.1 hrest', Bool.false_eq_true, if_false]
    rw [post_bind]
    refine (helem.2 s _ ready hrest' (.inl hkind)).imp ?_
    rintro a s₁ ⟨took, hmean⟩
    have hrest₁ : s₁.rest = comma :: (us ++ rest) := took.rest_eq hrest'
    have tookComma : Took s₁ s₁.next [comma] := Took.head hrest₁
    have tookBoth := took.trans tookComma
    rw [post_bind, post_eat, front_of_rest hrest₁, if_pos hkind]
    refine (ih fuel (done.push a) s₁.next (by omega) (ready.later tookBoth)
      (tookComma.rest_eq hrest₁)).imp ?_
    rintro as s₂ ⟨new, rfl, took', hall⟩
    refine ⟨a :: new, by simp, ?_, .cons ?_ hall⟩
    · simpa using tookBoth.trans took'
    · exact later _ _ _ _ _ hmean (tookComma.trans took')

/-- A list is read to its end if its elements are. -/
theorem commaList_complete (hclose : ¬ StartsExpr close) (hcomma : close ≠ .punct .comma)
    (later : ∀ s s' ts a x, Meaning s a x → Took s s' ts → Meaning s' a x)
    {ts : List Token} {xs : List γ}
    (h : CommaSeparated (ElementRead c names close item Meaning) ts xs) (s : ParseState)
    (rest : List Token) (ready : Ready c names s) (hrest : s.rest = ts ++ rest)
    (hend : headKind rest = close) :
    (commaList close item).Post c s
      (fun as s' => Took s s' ts ∧ List.Forall₂ (Meaning s') as xs) LimitHit := by
  have hlength : ts.length < c.tokenCount + 1 := by
    have hle := ready.rounds
    rw [hrest, List.length_append] at hle
    omega
  unfold commaList
  rw [post_bind, post_rounds]
  refine (itemsUntil_complete hclose hcomma later h _ #[] s rest hlength ready hrest hend).imp ?_
  rintro as s' ⟨new, rfl, took, hall⟩
  exact ⟨took, hall⟩

/-- A list with the mark that closes it. -/
theorem commaList_closed {β : Type} {next : List α → Span → Parser β}
    {Q : β → ParseState → Prop} (hclose : ¬ StartsExpr close) (hcomma : close ≠ .punct .comma)
    (later : ∀ s s' ts a x, Meaning s a x → Took s s' ts → Meaning s' a x)
    {ts rest : List Token} {xs : List γ} {closing : Token} {s : ParseState}
    (h : CommaSeparated (ElementRead c names close item Meaning) ts xs) (ready : Ready c names s)
    (hrest : s.rest = ts ++ closing :: rest) (hend : closing.kind = close)
    (hnext : ∀ as s', Took s s' (ts ++ [closing]) → List.Forall₂ (Meaning s') as xs →
      (next as closing.span).Post c s' Q LimitHit) :
    (commaList close item >>= fun as => expect close >>= next as).Post c s Q LimitHit :=
  post_closed (commaList_complete hclose hcomma later h s _ ready hrest hend)
    (fun _ _ _ _ hall took => hall.imp fun _ _ ha => later _ _ _ _ _ ha took) hrest hend hnext

end

/-- The marks that end an element of a list go on with no expression. -/
theorem not_continues {mark : Punct} (h : mark ∈ [.comma, .rparen, .rbracket, .rbrace]) :
    ¬ Continues false (.punct mark) := by
  simp only [List.mem_cons, List.not_mem_nil, or_false] at h
  rcases h with rfl | rfl | rfl | rfl <;>
    simp [Continues, infixSign_iff, ContinuesOperand, ContinuesName, TokenKind.infixOp?,
      Punct.infixOp?]

/-- An expression with the mark that closes it. -/
theorem InfixRead.closed {β : Type} {next : Built → Span → Parser β} {Q : β → ParseState → Prop}
    {ts rest : List Token} {t : Tree} {closing : Token} {mark : Punct} {depth : Nat}
    {s : ParseState} (h : InfixRead c names false 1 ts t) (ready : Ready c names s)
    (hrest : s.rest = ts ++ closing :: rest) (hclose : closing.kind = .punct mark)
    (hmark : mark ∈ [.comma, .rparen, .rbracket, .rbrace])
    (hnext : ∀ b s', Took s s' (ts ++ [closing]) → Denotes s' b t →
      (next b closing.span).Post c s' Q LimitHit) :
    (expr depth false >>= fun b => expect (.punct mark) >>= next b).Post c s Q LimitHit := by
  have hend : ¬ Continues false (headKind (closing :: rest)) := by
    rw [show headKind (closing :: rest) = _ from hclose]
    exact not_continues hmark
  exact post_closed (h.whole depth ready hrest hend) (fun _ _ _ _ hb took => hb.later took) hrest
    hclose hnext

section

variable {ts : List Token} {t : Tree} {close : TokenKind} (hclose : ¬ Continues false close)

include hclose

theorem InfixRead.element (hstart : FirstIs StartsExpr ts)
    (h : InfixRead c names false 1 ts t) (depth : Nat) :
    ElementRead c names close (expr depth false) Denotes ts t := by
  refine ⟨hstart, fun s rest ready hrest hend => h.whole depth ready hrest ?_⟩
  rcases hend with hk | hk
  · rw [hk]
    exact not_continues (by simp)
  · rwa [hk]

theorem InfixRead.fieldValue {field : FieldInit String Tree}
    (h : FieldValue names (InfixRead c names false 1) ts field) (depth : Nat) :
    ElementRead c names close (fieldInit (expr depth false)) (DenotesField names) ts field := by
  obtain ⟨hname, hcolon, hvalue⟩ := h
  refine ⟨⟨_, _, rfl, by simp [hname, StartsExpr, StartsPrimary]⟩, ?_⟩
  intro s rest ready hrest hend
  have tookName := Took.head hrest
  have hrest₁ := tookName.rest_eq hrest
  have tookColon := Took.head hrest₁
  have tookBoth := tookName.trans tookColon
  unfold fieldInit
  rw [post_bind]
  refine post_expectIdent_head hrest hname ?_
  rw [post_bind]
  refine post_expect_head hrest₁ hcolon ?_
  rw [post_bind]
  have hcontinues : ¬ Continues false (headKind rest) := by
    rcases hend with hk | hk
    · rw [hk]
      exact not_continues (by simp)
    · rwa [hk]
  refine (hvalue.whole depth (ready.later tookBoth) (tookBoth.rest_eq hrest) hcontinues).imp ?_
  rintro value s' ⟨took, hden⟩
  refine ⟨tookBoth.trans took, rfl, hden.tree, ?_⟩
  rw [hden.span]

end

section

variable {inHeader : Bool}

theorem PrimaryRead.literal {token : Token} {kind : NodeKind String Tree}
    (h : Literal names token.kind kind) :
    PrimaryRead c names inHeader [token] (.node kind token.span) := by
  intro depth s rest ready hrest _
  have took : Took s s.next [token] := Took.head hrest
  obtain ⟨node, hnode, hmap⟩ := h.literal?
  unfold primary
  rw [post_bind, post_current, front_of_rest hrest, hnode]
  dsimp only
  unfold Parser.literal
  rw [post_bind, post_advance]
  refine post_build_tree (fun e => limitHit_push _ e _) fun b s' grown hb => ?_
  rw [(ready.later took).names, hmap] at hb
  exact ⟨took.trans grown, hb⟩

theorem opensStructBody_of_head {ts : List Token} (h : headKind ts ≠ .punct .lbrace) :
    opensStructBody ts = false := by
  rcases ts with _ | ⟨t, ts⟩
  · rfl
  · unfold opensStructBody
    simp only [headKind, List.head?_cons, Option.map_some, Option.getD_some] at h
    split <;> simp_all

theorem PrimaryRead.name {token : Token} {sym : Symbol} (h : token.kind = .ident sym) :
    PrimaryRead c names inHeader [token] (.node (.ident (names.resolve sym)) token.span) := by
  intro depth s rest ready hrest hend
  have took : Took s s.next [token] := Took.head hrest
  have hbody : (!inHeader && opensStructBody s.next.rest) = false := by
    cases inHeader with
    | true => rfl
    | false =>
      rw [took.rest_eq hrest, opensStructBody_of_head fun hk => hend ⟨rfl, hk⟩]
      rfl
  unfold primary
  rw [post_bind, post_current, front_of_rest hrest]
  simp only [h, TokenKind.literal?]
  rw [post_bind, post_advance, post_bind, post_isAtStructBody]
  simp only [hbody, Bool.false_eq_true, if_false]
  refine post_build_tree (fun e => limitHit_push _ e _) fun b s' grown hb => ?_
  rw [NodeKind.map, (ready.later took).names] at hb
  exact ⟨took.trans grown, hb⟩

theorem PrimaryRead.paren {opening closing : Token} {ts : List Token} {t : Tree}
    (hopen : opening.kind = .punct .lparen) (h : InfixRead c names false 1 ts t)
    (hclose : closing.kind = .punct .rparen) :
    PrimaryRead c names inHeader (opening :: (ts ++ [closing])) t := by
  intro depth s rest ready hrest hend
  have hrest' : s.rest = opening :: (ts ++ closing :: rest) := by simpa using hrest
  have tookOpen : Took s s.next [opening] := Took.head hrest'
  unfold primary
  rw [post_bind, post_current, front_of_rest hrest']
  simp only [hopen, TokenKind.literal?]
  rw [post_bind, post_advance]
  refine h.closed (ready.later tookOpen) (tookOpen.rest_eq hrest') hclose (by simp) ?_
  exact fun inner s₁ took hinner => ⟨tookOpen.trans took, hinner⟩

theorem PrimaryRead.array {opening closing : Token} {ts : List Token} {elems : List Tree}
    (hopen : opening.kind = .punct .lbracket)
    (h : ∀ depth, CommaSeparated
      (ElementRead c names (.punct .rbracket) (expr depth false) Denotes) ts elems)
    (hclose : closing.kind = .punct .rbracket) :
    PrimaryRead c names inHeader (opening :: (ts ++ [closing]))
      (.node (.arrayLit elems) (opening.span.to closing.span)) := by
  intro depth s rest ready hrest hend
  have hrest' : s.rest = opening :: (ts ++ closing :: rest) := by simpa using hrest
  have tookOpen : Took s s.next [opening] := Took.head hrest'
  unfold primary
  rw [post_bind, post_current, front_of_rest hrest']
  simp only [hopen, TokenKind.literal?]
  unfold arrayLiteral
  rw [post_bind]
  refine post_expect_head hrest' hopen ?_
  refine commaList_closed (by simp [StartsExpr, StartsPrimary]) (by simp)
    (fun _ _ _ _ _ hden took => hden.later took) (h depth) (ready.later tookOpen)
    (tookOpen.rest_eq hrest') hclose fun bs s₁ took hall => ?_
  refine post_build_tree (fun e => limitHit_push _ e _) fun b s₂ grown hb => ?_
  rw [NodeKind.map, lookup_all hall] at hb
  exact ⟨by simpa using tookOpen.trans (took.trans grown), hb⟩

/-- The tokens behind the name of a struct literal open its body. -/
theorem opensStructBody_of_fields {opening closing : Token} {ts rest : List Token}
    {fields : List (FieldInit String Tree)} {Value : List Token → Tree → Prop}
    (hopen : opening.kind = .punct .lbrace) (h : CommaSeparated (FieldValue names Value) ts fields)
    (hclose : closing.kind = .punct .rbrace) :
    opensStructBody (opening :: (ts ++ closing :: rest)) = true := by
  cases h with
  | nil => simp [opensStructBody, hopen, hclose]
  | last hfield =>
    obtain ⟨hname, hcolon, -⟩ := hfield
    simp [opensStructBody, hopen, hname, hcolon]
  | more hfield _ _ =>
    obtain ⟨hname, hcolon, -⟩ := hfield
    simp [opensStructBody, hopen, hname, hcolon]

/-- A struct literal is found by the two tokens behind its brace. -/
theorem PrimaryRead.struct {name opening closing : Token} {sym : Symbol} {ts : List Token}
    {fields : List (FieldInit String Tree)} (hname : name.kind = .ident sym)
    (hopen : opening.kind = .punct .lbrace)
    (h : CommaSeparated (FieldValue names (InfixRead c names false 1)) ts fields)
    (hclose : closing.kind = .punct .rbrace) :
    PrimaryRead c names false (name :: opening :: (ts ++ [closing]))
      (.node (.structLit (names.resolve sym) fields) (name.span.to closing.span)) := by
  intro depth s rest ready hrest hend
  have hrest' : s.rest = name :: opening :: (ts ++ closing :: rest) := by simpa using hrest
  have tookName : Took s s.next [name] := Took.head hrest'
  have hnext : s.next.rest = opening :: (ts ++ closing :: rest) := tookName.rest_eq hrest'
  have tookOpen : Took s.next s.next.next [opening] := Took.head hnext
  have hbody : (!false && opensStructBody s.next.rest) = true := by
    rw [hnext, opensStructBody_of_fields hopen h hclose]
    rfl
  have hrbrace : ¬ Continues false (.punct .rbrace) := not_continues (by simp)
  unfold primary
  rw [post_bind, post_current, front_of_rest hrest']
  simp only [hname, TokenKind.literal?]
  rw [post_bind, post_advance, post_bind, post_isAtStructBody, if_pos hbody]
  unfold structLiteral
  rw [post_bind]
  refine post_expect_head hnext hopen ?_
  refine commaList_closed (by simp [StartsExpr, StartsPrimary]) (by simp)
    (fun _ _ _ _ _ hden took => hden.later took)
    (h.mono fun _ _ hfield => InfixRead.fieldValue hrbrace hfield depth)
    (ready.later (tookName.trans tookOpen)) (tookOpen.rest_eq hnext) hclose
    fun fs s₁ took hall => ?_
  have tookAll := tookName.trans (tookOpen.trans took)
  refine post_build_tree (fun e => limitHit_push _ e _) fun b s₂ grown hb => ?_
  rw [NodeKind.map, (ready.later tookAll).names, lookup_fields hall] at hb
  exact ⟨by simpa using tookAll.trans grown, hb⟩

theorem PostfixedRead.primary {ts : List Token} {t : Tree}
    (h : PrimaryRead c names inHeader ts t) : PostfixedRead c names inHeader ts t := by
  intro depth s rest Q ready hrest hend hgo
  rw [post_bind]
  refine (h depth s rest ready hrest hend).imp ?_
  rintro b s' ⟨took, hb⟩
  exact hgo depth b s' took hb

/-- One more postfix operation. Given how its step is read at every depth, the
chain goes on behind it. -/
theorem PostfixedRead.step {bs ts : List Token} {first : Token} {base whole : Tree}
    (hbase : PostfixedRead c names inHeader bs base) (hfirst : opensPostfix first.kind = true)
    (hstep : ∀ depth b s rest, Ready c names s → s.rest = first :: ts ++ rest →
      Denotes s b base →
      (postfixStep (expr depth false) b).Post c s
        (fun b' s' => Took s s' (first :: ts) ∧ Denotes s' b' whole) LimitHit) :
    PostfixedRead c names inHeader (bs ++ first :: ts) whole := by
  intro depth s rest Q ready hrest hend hgo
  have hrest' : s.rest = bs ++ (first :: ts ++ rest) := by simpa using hrest
  have hname : ¬ ContinuesName inHeader first.kind := by
    rintro ⟨-, hk⟩
    simp [hk, opensPostfix] at hfirst
  refine hbase depth s _ Q ready hrest' hname fun d b s₁ took hb => ?_
  have hrest₁ : s₁.rest = first :: ts ++ rest := took.rest_eq hrest'
  cases d with
  | zero =>
    unfold postfixChain
    rw [post_bind, post_current, front_of_rest hrest₁, if_pos hfirst, post_tooDeep]
    exact limitHit_push _ _ _
  | succ d =>
    unfold postfixChain
    rw [post_bind, post_current, front_of_rest hrest₁, if_pos hfirst, post_bind]
    refine (hstep d b s₁ rest (ready.later took) hrest₁ hb).imp ?_
    rintro b' s₂ ⟨took', hb'⟩
    exact hgo d b' s₂ (took.trans took') hb'

/-- A call goes on with the chain that its callee ends. -/
theorem PostfixedRead.call {fs as : List Token} {opening closing : Token} {f : Tree}
    {args : List Tree} (hf : PostfixedRead c names inHeader fs f)
    (hopen : opening.kind = .punct .lparen)
    (h : ∀ depth, CommaSeparated
      (ElementRead c names (.punct .rparen) (expr depth false) Denotes) as args)
    (hclose : closing.kind = .punct .rparen) :
    PostfixedRead c names inHeader (fs ++ opening :: (as ++ [closing]))
      (.node (.call f args) (f.span.to closing.span)) := by
  refine hf.step (by rw [hopen]; rfl) fun depth b s rest ready hrest hb => ?_
  have hrest' : s.rest = opening :: (as ++ closing :: rest) := by simpa using hrest
  have tookOpen : Took s s.next [opening] := Took.head hrest'
  unfold postfixStep
  rw [post_bind, post_current, front_of_rest hrest']
  simp only [hopen]
  rw [post_bind, post_advance]
  refine commaList_closed (by simp [StartsExpr, StartsPrimary]) (by simp)
    (fun _ _ _ _ _ hden took => hden.later took) (h depth) (ready.later tookOpen)
    (tookOpen.rest_eq hrest') hclose fun bs s₁ took hall => ?_
  have tookAll := tookOpen.trans took
  refine post_build_tree (fun e => limitHit_push _ e _) fun b' s₂ grown hb' => ?_
  rw [NodeKind.map, (hb.later tookAll).lookup, lookup_all hall, hb.span] at hb'
  exact ⟨by simpa using tookAll.trans grown, hb'⟩

theorem PostfixedRead.index {bs is : List Token} {opening closing : Token} {base i : Tree}
    (hbase : PostfixedRead c names inHeader bs base) (hopen : opening.kind = .punct .lbracket)
    (h : InfixRead c names false 1 is i) (hclose : closing.kind = .punct .rbracket) :
    PostfixedRead c names inHeader (bs ++ opening :: (is ++ [closing]))
      (.node (.index base i) (base.span.to closing.span)) := by
  refine hbase.step (by rw [hopen]; rfl) fun depth b s rest ready hrest hb => ?_
  have hrest' : s.rest = opening :: (is ++ closing :: rest) := by simpa using hrest
  have tookOpen : Took s s.next [opening] := Took.head hrest'
  unfold postfixStep
  rw [post_bind, post_current, front_of_rest hrest']
  simp only [hopen]
  rw [post_bind, post_advance]
  refine h.closed (ready.later tookOpen) (tookOpen.rest_eq hrest') hclose (by simp)
    fun x s₁ took hx => ?_
  have tookAll := tookOpen.trans took
  refine post_build_tree (fun e => limitHit_push _ e _) fun b' s₂ grown hb' => ?_
  rw [NodeKind.map, (hb.later tookAll).lookup, hx.lookup, hb.span] at hb'
  exact ⟨by simpa using tookAll.trans grown, hb'⟩

theorem PostfixedRead.field {bs : List Token} {dot name : Token} {sym : Symbol} {base : Tree}
    (hbase : PostfixedRead c names inHeader bs base) (hdot : dot.kind = .punct .dot)
    (hname : name.kind = .ident sym) :
    PostfixedRead c names inHeader (bs ++ [dot, name])
      (.node (.fieldAccess base (names.resolve sym)) (base.span.to name.span)) := by
  refine hbase.step (by rw [hdot]; rfl) fun depth b s rest ready hrest hb => ?_
  have tookDot : Took s s.next [dot] := Took.head hrest
  have hnext : s.next.rest = name :: rest := tookDot.rest_eq hrest
  have tookBoth := tookDot.trans (Took.head hnext)
  unfold postfixStep
  rw [post_bind, post_current, front_of_rest hrest]
  simp only [hdot]
  rw [post_bind, post_advance, post_bind]
  refine post_expectIdent_head hnext hname ?_
  refine post_build_tree (fun e => limitHit_push _ e _) fun b' s₁ grown hb' => ?_
  rw [NodeKind.map, (hb.later tookBoth).lookup, (ready.later tookBoth).names, hb.span] at hb'
  exact ⟨by simpa using tookBoth.trans grown, hb'⟩

end

mutual

/-- Every derivation is read, by induction over all of its parts at once. -/
theorem infix_read {inHeader : Bool} {level : Nat} {ts : List Token} {t : Tree}
    (h : Infix names inHeader level ts t) : InfixRead c names inHeader level ts t := by
  match h with
  | .operand hoperand => exact .operand (operand_read hoperand)
  | .tighter _ _ htighter => exact (infix_read htighter).tighter
  | .join hop hl hr => exact .join (infixSign_iff.mp hop) (infix_read hl) (infix_read hr)

theorem operand_read {inHeader : Bool} {ts : List Token} {t : Tree}
    (h : Operand names inHeader ts t) : OperandRead c names inHeader ts t := by
  match h with
  | .bare hbare => exact .bare hbare.starts (postfixed_read hbare)
  | .sign hsign hoperand => exact .sign hsign hoperand.starts (operand_read hoperand)
  | .refRef hboth hoperand hinner => exact .refRef hboth (operand_read hoperand) hinner

/-- Every postfix expression of the grammar is read, link by link. -/
theorem postfixed_read {inHeader : Bool} {ts : List Token} {t : Tree}
    (h : Postfixed names inHeader ts t) : PostfixedRead c names inHeader ts t := by
  match h with
  | .primary hprimary => exact .primary (primary_read hprimary)
  | .call hf hopen hargs hclose =>
    refine .call (postfixed_read hf) hopen (fun depth => ?_) hclose
    exact (elements_read hargs).mono fun _ _ ⟨hstart, hread⟩ =>
      hread.element (not_continues (by simp)) hstart depth
  | .index hbase hopen hindex hclose =>
    exact .index (postfixed_read hbase) hopen (infix_read hindex) hclose
  | .field hbase hdot hname => exact .field (postfixed_read hbase) hdot hname

/-- Every primary expression of the grammar is read. -/
theorem primary_read {inHeader : Bool} {ts : List Token} {t : Tree}
    (h : Primary names inHeader ts t) : PrimaryRead c names inHeader ts t := by
  match h with
  | .literal hliteral => exact .literal hliteral
  | .name hname => exact .name hname
  | .paren hopen hinner hclose => exact .paren hopen (infix_read hinner) hclose
  | .array hopen helems hclose =>
    refine .array hopen (fun depth => ?_) hclose
    exact (elements_read helems).mono fun _ _ ⟨hstart, hread⟩ =>
      hread.element (not_continues (by simp)) hstart depth
  | .struct hname hopen hfields hclose => exact .struct hname hopen (fields_read hfields) hclose

theorem elements_read {ts : List Token} {xs : List Tree}
    (h : CommaSeparated (Infix names false 1) ts xs) :
    CommaSeparated (fun ts t => FirstIs StartsExpr ts ∧ InfixRead c names false 1 ts t) ts xs := by
  match h with
  | .nil => exact .nil
  | .last helem => exact .last ⟨helem.starts, infix_read helem⟩
  | .more helem hcomma hmore =>
    exact .more ⟨helem.starts, infix_read helem⟩ hcomma (elements_read hmore)

theorem field_read {ts : List Token} {x : FieldInit String Tree}
    (h : FieldValue names (Infix names false 1) ts x) :
    FieldValue names (InfixRead c names false 1) ts x := by
  match h with
  | .intro hname hcolon hvalue => exact .intro hname hcolon (infix_read hvalue)

theorem fields_read {ts : List Token} {xs : List (FieldInit String Tree)}
    (h : CommaSeparated (FieldValue names (Infix names false 1)) ts xs) :
    CommaSeparated (FieldValue names (InfixRead c names false 1)) ts xs := by
  match h with
  | .nil => exact .nil
  | .last hfield => exact .last (field_read hfield)
  | .more hfield hcomma hmore => exact .more (field_read hfield) hcomma (fields_read hmore)

end

/-- A strict reader of expressions accepts exactly the grammar. Started at
position `i` of a token stream (the closing token is left out), it stops where
a derivation of the tree it built ends. Conversely a derivation that ends at
`j`, in front of a token that could not go on with it, is what the reader
builds and where it stops, unless it hits a limit. -/
theorem expr_accepts_exactly (tokens : List Token) (i : Nat) (hi : i ≤ tokens.length)
    (c : ParseSettings) (hstrict : c.mode = .strict) (hcount : c.tokenCount = tokens.length)
    (s : ParseState) (hs : s.rest = tokens.drop i) (depth : Nat) (inHeader : Bool) :
    (∀ b s', expr depth inHeader c s = .ok (b, s') →
      ∃ j t, i ≤ j ∧ j ≤ tokens.length ∧ s'.rest = tokens.drop j ∧ s'.names = s.names ∧
        s'.tree? b.id = some t ∧ Grammar.Expr s.names inHeader (tokens.extract i j) t) ∧
    (∀ j t, i ≤ j → j ≤ tokens.length → Grammar.Expr s.names inHeader (tokens.extract i j) t →
      ¬ Continues inHeader (headKind (tokens.drop j)) →
      (∀ ds, expr depth inHeader c s = .error ds → ¬ LimitHit ds) →
      ∃ b s', expr depth inHeader c s = .ok (b, s') ∧ s'.rest = tokens.drop j ∧
        s'.names = s.names ∧ s'.tree? b.id = some t) := by
  constructor
  · intro b s' hrun
    obtain ⟨ts, t, took, hexpr, hb⟩ := ((soundAt hstrict depth).expr inHeader s rfl).of_ok hrun
    have hlength : (tokens.drop i).length = ts.length + s'.rest.length := by
      rw [← hs, took.rest, List.length_append]
    rw [List.length_drop] at hlength
    have hused : tokens.extract i (i + ts.length) = ts := by
      rw [List.extract_eq_take_drop, ← hs, took.rest]
      simp
    refine ⟨i + ts.length, t, by omega, by omega, ?_, took.names, hb.tree, ?_⟩
    · rw [← List.drop_drop, ← hs, took.rest]
      simp
    · rw [hused]
      exact hexpr
  · intro j t hij hj hexpr hend hlimit
    have hsplit : s.rest = tokens.extract i j ++ tokens.drop j := by
      rw [hs, List.extract_eq_take_drop]
      have hdrop : (tokens.drop i).drop (j - i) = tokens.drop j := by
        rw [List.drop_drop]
        congr 1
        omega
      rw [← hdrop, List.take_append_drop]
    have ready : Ready c s.names s := ⟨rfl, by rw [hs, hcount, List.length_drop]; omega⟩
    have hpost := (infix_read (c := c) hexpr).whole depth ready hsplit hend
    cases hrun : expr depth inHeader c s with
    | error ds => exact absurd (hpost.of_error hrun) (hlimit ds hrun)
    | ok r =>
      obtain ⟨b, s'⟩ := r
      obtain ⟨took, hb⟩ := hpost.of_ok hrun
      exact ⟨b, s', rfl, took.rest_eq hsplit, took.names, hb.tree⟩

/-- The tokens of `return x - 2 * x;`. -/
def differenceTokens : List Token :=
  [⟨.keyword .returnKw, {}⟩, ⟨.ident 0, {}⟩, ⟨.punct .minus, {}⟩, ⟨.int 2, {}⟩,
    ⟨.punct .star, {}⟩, ⟨.ident 0, {}⟩, ⟨.punct .semicolon, {}⟩]

def differenceState : ParseState where
  rest := differenceTokens.drop 1
  arena := .withLimits {}
  names := (Interner.empty.intern "x").2
  diagnostics := #[]

/-- From the second token of the statement on stands a difference, and the
product is its right operand. -/
theorem expr_accepts_difference :
    ∃ b s', expr 3 false ⟨.strict, 3, {}, 7⟩ differenceState = .ok (b, s') ∧
      s'.rest = differenceTokens.drop 6 ∧ s'.names = differenceState.names ∧
      s'.tree? b.id = some (.node (.binary .sub (.node (.ident "x") {})
        (.node (.binary .mul (.node (.int 2) {}) (.node (.ident "x") {})) {})) {}) := by
  have hname : differenceState.names.resolve 0 = "x" := by decide +kernel
  have hx : Infix differenceState.names false 12 [⟨.ident 0, {}⟩] (.node (.ident "x") {}) := by
    rw [← hname]
    exact .operand (.bare (.primary (.name rfl)))
  have htwo : Infix differenceState.names false 12 [⟨.int 2, {}⟩] (.node (.int 2) {}) :=
    .operand (.bare (.primary (.literal (.int 2))))
  have hproduct : Infix differenceState.names false 11
      ([⟨.int 2, {}⟩] ++ ⟨.punct .star, {}⟩ :: [⟨.ident 0, {}⟩]) _ :=
    .join .mul (htwo.loosen (by omega) (by omega) (by omega)) hx
  have hdifference : Infix differenceState.names false 10
      ([⟨.ident 0, {}⟩] ++ ⟨.punct .minus, {}⟩ ::
        ([⟨.int 2, {}⟩] ++ ⟨.punct .star, {}⟩ :: [⟨.ident 0, {}⟩])) _ :=
    .join .sub (hx.loosen (by omega) (by omega) (by omega)) hproduct
  have hok : (expr 3 false ⟨.strict, 3, {}, 7⟩ differenceState).isOk = true := by decide +kernel
  refine (expr_accepts_exactly differenceTokens 1 (by decide) _ rfl rfl differenceState rfl 3
    false).2 6 _ (by decide) (by decide) (hdifference.loosen (by omega) (by omega) (by omega)) ?_ ?_
  · simp [differenceTokens, headKind, Continues, infixSign_iff, ContinuesOperand, ContinuesName,
      TokenKind.infixOp?, Punct.infixOp?]
  · intro ds hrun
    rw [hrun] at hok
    cases hok

end StagedCompiler.Parser
