import StagedCompiler.Proofs.Parser.ExprGrammar
import StagedCompiler.Proofs.Tree.Store

/-!
What a strict reader accepts as an expression is one. Every reader that
succeeds used up tokens from which the grammar derives the tree it built; the
proofs follow the readers, and the induction is on the nesting still allowed.
-/

namespace StagedCompiler.Parser

open Grammar

variable {c : ParseSettings} {names : Interner}

/-- Whatever the reader accepts, it used up tokens that `R` relates to
something, and the value it gives means that thing. -/
def ReadsAs {α γ : Type} (c : ParseSettings) (names : Interner) (R : List Token → γ → Prop)
    (Meaning : ParseState → α → γ → Prop) (p : Parser α) : Prop :=
  ∀ s, s.names = names →
    p.Post c s (fun a s' => ∃ ts x, Took s s' ts ∧ R ts x ∧ Meaning s' a x) fun _ => True

abbrev Reads (c : ParseSettings) (names : Interner) (R : List Token → Tree → Prop)
    (p : Parser Built) : Prop :=
  ReadsAs c names R Denotes p

section

variable {s : ParseState}

theorem post_expect_strict (hstrict : c.mode = .strict) {k : TokenKind} (hk : k ≠ .eof)
    {Q : Span → ParseState → Prop}
    (h : (front c s).kind = k → Took s s.next [front c s] → Q (front c s).span s.next) :
    (expect k).Post c s Q fun _ => True := by
  rw [post_expect]
  split
  · next hfront => exact h hfront (Took.front (by rw [hfront]; exact hk))
  · rw [post_fault_strict hstrict]
    trivial

theorem post_expectIdent_strict (hstrict : c.mode = .strict)
    {Q : Symbol × Span → ParseState → Prop}
    (h : ∀ sym, (front c s).kind = .ident sym → Took s s.next [front c s] →
      Q (sym, (front c s).span) s.next) :
    expectIdent.Post c s Q fun _ => True := by
  rw [post_expectIdent]
  refine ⟨fun sym hsym => h sym hsym (Took.front (by simp [hsym])), fun _ => ?_⟩
  rw [post_fault_strict hstrict]
  trivial

end

section

variable {α γ : Type} {item : Parser α} {Element : List Token → γ → Prop}
  {Meaning : ParseState → α → γ → Prop} {close : TokenKind}

/-- Elements read up to a closing token are separated by commas. -/
theorem itemsUntil_sound
    (later : ∀ s s' ts a x, Meaning s a x → Took s s' ts → Meaning s' a x)
    (hitem : ReadsAs c names Element Meaning item) (fuel : Nat) (done : Array α)
    (s : ParseState) (hnames : s.names = names) :
    (itemsUntil close item fuel done).Post c s
      (fun as s' => ∃ ts new xs, as = done.toList ++ new ∧ Took s s' ts ∧
        CommaSeparated Element ts xs ∧ List.Forall₂ (Meaning s') new xs) fun _ => True := by
  induction fuel generalizing done s with
  | zero =>
    unfold itemsUntil
    exact ⟨[], [], [], by simp, Took.refl s, .nil, .nil⟩
  | succ fuel ih =>
    unfold itemsUntil
    rw [post_bind, post_isAt, post_bind, post_isAt]
    split
    · exact ⟨[], [], [], by simp, Took.refl s, .nil, .nil⟩
    · rw [post_bind]
      refine (hitem s hnames).imp ?_
      rintro a s₁ ⟨ts, x, took, helem, hmean⟩
      rw [post_bind, post_eat]
      split
      · next hcomma =>
        have tookComma : Took s₁ s₁.next [front c s₁] := Took.front (by simp [hcomma])
        have hnames' : s₁.next.names = names := by rw [s₁.next_names, took.names, hnames]
        refine (ih (done.push a) s₁.next hnames').imp ?_
        rintro as s₂ ⟨us, new, xs, rfl, took', hsep, hall⟩
        refine ⟨ts ++ front c s₁ :: us, a :: new, x :: xs, by simp, ?_,
          .more helem hcomma hsep, .cons ?_ hall⟩
        · exact took.trans (tookComma.trans took')
        · exact later _ _ _ _ _ hmean (tookComma.trans took')
      · refine ⟨ts, [a], [x], by simp, took, .last helem, .cons hmean .nil⟩

theorem commaList_sound
    (later : ∀ s s' ts a x, Meaning s a x → Took s s' ts → Meaning s' a x)
    (hitem : ReadsAs c names Element Meaning item) :
    ReadsAs c names (CommaSeparated Element) (fun s => List.Forall₂ (Meaning s))
      (commaList close item) := by
  intro s hnames
  unfold commaList
  rw [post_bind, post_rounds]
  refine (itemsUntil_sound later hitem _ _ s hnames).imp ?_
  rintro as s' ⟨ts, new, xs, rfl, took, hsep, hall⟩
  exact ⟨ts, xs, took, hsep, hall⟩

end

section

variable (hstrict : c.mode = .strict) {nested : Parser Built}
  (hnested : Reads c names (Infix names false 1) nested)

include hstrict hnested

theorem fieldInit_sound :
    ReadsAs c names (FieldValue names (Infix names false 1)) (DenotesField names)
      (fieldInit nested) := by
  intro s hnames
  unfold fieldInit
  rw [post_bind]
  refine post_expectIdent_strict hstrict fun sym hsym tookName => ?_
  rw [post_bind]
  refine post_expect_strict hstrict (by simp) fun hcolon tookColon => ?_
  rw [post_bind]
  refine (hnested _ (by simp [hnames])).imp ?_
  rintro value s' ⟨ts, t, took, hexpr, hvalue⟩
  refine ⟨_, _, tookName.trans (tookColon.trans took), .intro hsym hcolon hexpr, ?_⟩
  exact ⟨rfl, hvalue.tree, by rw [hvalue.span]⟩

/-- What is read behind a name makes a struct literal with it. -/
theorem structLiteral_sound {name : Token} {sym : Symbol} (hname : name.kind = .ident sym)
    (s : ParseState) (hnames : s.names = names) :
    (structLiteral nested sym name.span).Post c s
      (fun b s' => ∃ ts t, Took s s' ts ∧ Primary names false (name :: ts) t ∧
        Denotes s' b t) fun _ => True := by
  unfold structLiteral
  rw [post_bind]
  refine post_expect_strict hstrict (by simp) fun hopen tookOpen => ?_
  rw [post_bind]
  refine (commaList_sound (fun _ _ _ _ _ h took => h.later took)
    (fieldInit_sound hstrict hnested) s.next (by simp [hnames])).imp ?_
  rintro fields s₁ ⟨ts, xs, took, hsep, hall⟩
  rw [post_bind]
  refine post_expect_strict hstrict (by simp) fun hclose tookClose => ?_
  refine post_build_tree (fun _ => trivial) fun b s₂ grown hb => ?_
  have hnames₁ : s₁.next.names = names := by rw [s₁.next_names, took.names, s.next_names, hnames]
  have hall' : List.Forall₂ (DenotesField names s₁.next) fields xs :=
    hall.imp fun _ _ h => h.later tookClose
  have htree := lookup_fields hall'
  refine ⟨front c s :: (ts ++ [front c s₁]), _, ?_, .struct hname hopen hsep hclose, ?_⟩
  · simpa using tookOpen.trans (took.trans (tookClose.trans grown))
  · rw [NodeKind.map, hnames₁, htree] at hb
    exact hb

theorem arrayLiteral_sound (inHeader : Bool) :
    Reads c names (Primary names inHeader) (arrayLiteral nested) := by
  intro s hnames
  unfold arrayLiteral
  rw [post_bind]
  refine post_expect_strict hstrict (by simp) fun hopen tookOpen => ?_
  rw [post_bind]
  refine (commaList_sound (fun _ _ _ _ _ h took => h.later took) hnested s.next
    (by simp [hnames])).imp ?_
  rintro elems s₁ ⟨ts, trees, took, hsep, hall⟩
  rw [post_bind]
  refine post_expect_strict hstrict (by simp) fun hclose tookClose => ?_
  refine post_build_tree (fun _ => trivial) fun b s₂ grown hb => ?_
  have hall' : List.Forall₂ (Denotes s₁.next) elems trees :=
    hall.imp fun _ _ h => h.later tookClose
  refine ⟨front c s :: (ts ++ [front c s₁]), _, ?_, .array hopen hsep hclose, ?_⟩
  · simpa using tookOpen.trans (took.trans (tookClose.trans grown))
  · rw [NodeKind.map, lookup_all hall'] at hb
    exact hb

omit hstrict hnested in
theorem literal_sound {node : NodeKind Symbol NodeId} {inHeader : Bool} (s : ParseState)
    (hnames : s.names = names) (hnode : (front c s).kind.literal? = some node) :
    (literal node (front c s).span).Post c s
      (fun b s' => ∃ ts t, Took s s' ts ∧ Primary names inHeader ts t ∧ Denotes s' b t)
      fun _ => True := by
  have took : Took s s.next [front c s] := Took.front (TokenKind.of_literal? hnode).1
  unfold literal
  rw [post_bind, post_advance]
  refine post_build_tree (fun _ => trivial) fun b s' grown hb => ?_
  rw [s.next_names, hnames] at hb
  exact ⟨[front c s], _, took.trans grown, .literal (.of_literal? hnode _), hb⟩

/-- The token at the front decides which primary is derived. -/
theorem primary_sound (inHeader : Bool) :
    Reads c names (Primary names inHeader) (primary nested inHeader) := by
  intro s hnames
  unfold primary
  rw [post_bind, post_current]
  split
  · next node hnode => exact literal_sound s hnames hnode
  split
  · next sym hk =>
    have tookName : Took s s.next [front c s] := Took.front (by simp [hk])
    have hnames' : s.next.names = names := by rw [s.next_names, hnames]
    rw [post_bind, post_advance, post_bind, post_isAtStructBody]
    split
    · next hbody =>
      cases inHeader with
      | true => simp at hbody
      | false =>
        refine (structLiteral_sound hstrict hnested hk s.next hnames').imp ?_
        rintro b s' ⟨ts, t, took, hprimary, hb⟩
        exact ⟨front c s :: ts, t, tookName.trans took, hprimary, hb⟩
    · refine post_build_tree (fun _ => trivial) fun b s' grown hb => ?_
      rw [NodeKind.map, hnames'] at hb
      exact ⟨[front c s], _, tookName.trans grown, .name hk, hb⟩
  · next hk =>
    have tookOpen : Took s s.next [front c s] := Took.front (by simp [hk])
    rw [post_bind, post_advance, post_bind]
    refine (hnested s.next (by rw [s.next_names, hnames])).imp ?_
    rintro inner s₁ ⟨ts, t, took, hexpr, hinner⟩
    rw [post_bind]
    refine post_expect_strict hstrict (by simp) fun hclose tookClose => ?_
    refine ⟨front c s :: (ts ++ [front c s₁]), t, ?_, .paren hk hexpr hclose, ?_⟩
    · simpa using tookOpen.trans (took.trans tookClose)
    · exact hinner.later tookClose
  · exact arrayLiteral_sound hstrict hnested inHeader s hnames
  · rw [post_bind, post_fault_strict hstrict]
    trivial

end

section

variable {inHeader : Bool}

/-- The node of a prefix operator, over the operand that follows. -/
theorem applyPrefix_sound {operand : Parser Built}
    (hoperand : Reads c names (Operand names inHeader) operand) (op : UnaryOp) (start : Span)
    (s : ParseState) (hnames : s.names = names) :
    (applyPrefix operand op start).Post c s
      (fun b s' => ∃ ts t, Took s s' ts ∧ Operand names inHeader ts t ∧
        Denotes s' b (.node (.unary op t) (start.to t.span))) fun _ => True := by
  unfold applyPrefix
  rw [post_bind]
  refine (hoperand s hnames).imp ?_
  rintro x s₁ ⟨ts, t, took, hx, hden⟩
  refine post_build_tree (fun _ => trivial) fun b s₂ grown hb => ?_
  rw [NodeKind.map, hden.lookup, hden.span] at hb
  exact ⟨ts, t, by simpa using took.trans grown, hx, hb⟩

theorem prefixOp?_sign {kind : TokenKind} {op : UnaryOp} (h : prefixOp? kind = some op) :
    Prefix [kind] op := by
  unfold prefixOp? at h
  split at h
  · cases h; exact .not
  · cases h; exact .neg
  · cases h; exact .deref
  · cases h

/-- Each prefix is one of the grammar, the double ampersand two. -/
theorem prefixed_sound {operand bare : Parser Built}
    (hoperand : Reads c names (Operand names inHeader) operand)
    (hbare : Reads c names (Postfixed names inHeader) bare) :
    Reads c names (Operand names inHeader) (prefixed operand bare) := by
  intro s hnames
  have hnext : s.next.names = names := by rw [s.next_names, hnames]
  unfold prefixed
  rw [post_bind, post_current]
  split
  · next hk =>
    have tookAmp : Took s s.next [front c s] := Took.front (by simp [hk])
    rw [post_bind, post_advance, post_bind, post_eat]
    split
    · next hmut =>
      have tookMut : Took s.next s.next.next [front c s.next] := Took.front (by simp [hmut])
      refine (applyPrefix_sound hoperand .refMut _ _ (by simp [hnames])).imp ?_
      rintro b s' ⟨ts, t, took, hx, hb⟩
      have hsign : Prefix ((front c s).kind :: [front c s.next].map (·.kind)) .refMut := by
        simpa [hk, hmut] using Prefix.refMut
      exact ⟨front c s :: ([front c s.next] ++ ts), _, tookAmp.trans (tookMut.trans took),
        .sign hsign hx, hb⟩
    · refine (applyPrefix_sound hoperand .ref _ _ hnext).imp ?_
      rintro b s' ⟨ts, t, took, hx, hb⟩
      have hsign : Prefix ((front c s).kind :: ([] : List Token).map (·.kind)) .ref := by
        simpa [hk] using Prefix.ref
      exact ⟨_, _, tookAmp.trans took, .sign hsign hx, hb⟩
  · next hk =>
    have tookBoth : Took s s.next [front c s] := Took.front (by simp [hk])
    rw [post_bind, post_advance, post_bind, post_current, post_bind]
    refine (applyPrefix_sound hoperand .ref _ _ hnext).imp ?_
    rintro inner s₁ ⟨ts, t, took, hx, hinner⟩
    refine post_build_tree (fun _ => trivial) fun b s₂ grown hb => ?_
    rw [NodeKind.map, hinner.lookup, hinner.span] at hb
    obtain ⟨first, more, rfl, -⟩ := hx.starts
    have hfirst : front c s.next = first := front_of_rest took.rest
    rw [hfirst] at hb
    refine ⟨_, _, ?_, .refRef hk hx rfl, hb⟩
    simpa using tookBoth.trans (took.trans grown)
  · split
    · next op hop =>
      have hk : (front c s).kind ≠ .eof := by
        intro heof
        simp [heof, prefixOp?] at hop
      have tookSign : Took s s.next [front c s] := Took.front hk
      rw [post_bind, post_advance]
      refine (applyPrefix_sound hoperand op _ _ hnext).imp ?_
      rintro b s' ⟨ts, t, took, hx, hb⟩
      have hsign : Prefix ((front c s).kind :: ([] : List Token).map (·.kind)) op :=
        prefixOp?_sign hop
      exact ⟨_, _, tookSign.trans took, .sign hsign hx, hb⟩
    · refine (hbare s hnames).imp ?_
      rintro b s' ⟨ts, t, took, hx, hb⟩
      exact ⟨ts, t, took, .bare hx, hb⟩

/-- One postfix operation on `base`, which was read from `us`. -/
theorem postfixStep_sound (hstrict : c.mode = .strict) {nested : Parser Built}
    (hnested : Reads c names (Infix names false 1) nested) {base : Built} {us : List Token}
    {t : Tree} (hbase : Postfixed names inHeader us t) (s : ParseState) (hnames : s.names = names)
    (hden : Denotes s base t) :
    (postfixStep nested base).Post c s
      (fun b s' => ∃ ts t', Took s s' ts ∧ Postfixed names inHeader (us ++ ts) t' ∧
        Denotes s' b t') fun _ => True := by
  have hnext : s.next.names = names := by rw [s.next_names, hnames]
  unfold postfixStep
  rw [post_bind, post_current]
  split
  · next hk =>
    have tookOpen : Took s s.next [front c s] := Took.front (by simp [hk])
    rw [post_bind, post_advance, post_bind]
    refine (commaList_sound (fun _ _ _ _ _ h took => h.later took) hnested s.next hnext).imp ?_
    rintro args s₁ ⟨ts, trees, took, hsep, hall⟩
    rw [post_bind]
    refine post_expect_strict hstrict (by simp) fun hclose tookClose => ?_
    refine post_build_tree (fun _ => trivial) fun b s₂ grown hb => ?_
    have hden' : Denotes s₁.next base t := hden.later (tookOpen.trans (took.trans tookClose))
    have hall' : List.Forall₂ (Denotes s₁.next) args trees :=
      hall.imp fun _ _ h => h.later tookClose
    rw [NodeKind.map, hden'.lookup, lookup_all hall', hden.span] at hb
    refine ⟨front c s :: (ts ++ [front c s₁]), _, ?_, .call hbase hk hsep hclose, hb⟩
    simpa using tookOpen.trans (took.trans (tookClose.trans grown))
  · next hk =>
    have tookOpen : Took s s.next [front c s] := Took.front (by simp [hk])
    rw [post_bind, post_advance, post_bind]
    refine (hnested s.next hnext).imp ?_
    rintro index s₁ ⟨ts, i, took, hexpr, hindex⟩
    rw [post_bind]
    refine post_expect_strict hstrict (by simp) fun hclose tookClose => ?_
    refine post_build_tree (fun _ => trivial) fun b s₂ grown hb => ?_
    have hden' : Denotes s₁.next base t := hden.later (tookOpen.trans (took.trans tookClose))
    rw [NodeKind.map, hden'.lookup, (hindex.later tookClose).lookup, hden.span] at hb
    refine ⟨front c s :: (ts ++ [front c s₁]), _, ?_, .index hbase hk hexpr hclose, hb⟩
    simpa using tookOpen.trans (took.trans (tookClose.trans grown))
  · next hk =>
    have tookDot : Took s s.next [front c s] := Took.front (by simp [hk])
    rw [post_bind, post_advance, post_bind]
    refine post_expectIdent_strict hstrict fun sym hsym tookName => ?_
    refine post_build_tree (fun _ => trivial) fun b s₁ grown hb => ?_
    have hden' : Denotes s.next.next base t := hden.later (tookDot.trans tookName)
    rw [NodeKind.map, hden'.lookup, hden.span, s.next.next_names, hnext] at hb
    refine ⟨[front c s, front c s.next], _, ?_, .field hbase hk hsym, hb⟩
    simpa using tookDot.trans (tookName.trans grown)
  · exact ⟨[], t, Took.refl s, by simpa using hbase, hden⟩

end

/-- An infix operator at the front binds looser than the given level. -/
def StopsBelow (c : ParseSettings) (s : ParseState) (level : Nat) : Prop :=
  ∀ p op, (front c s).kind.infixOp? = some (p, op) → p < level

theorem stopsBelow_of_lt {s : ParseState} {p level : Nat} {op : InfixOp}
    (hop : (front c s).kind.infixOp? = some (p, op)) (hp : p < level) :
    StopsBelow c s level := by
  intro p' op' hop'
  rw [hop] at hop'
  cases hop'
  exact hp

theorem stopsBelow_of_none {s : ParseState} {level : Nat}
    (hnone : (front c s).kind.infixOp? = none) : StopsBelow c s level := by
  intro p op hop
  rw [hnone] at hop
  cases hop

/-- What the readers of expressions accept at some depth. The operand that an
infix chain starts from may be of any level that the operator behind it does
not bind tighter than. -/
structure SoundAt (c : ParseSettings) (names : Interner) (depth : Nat) : Prop where
  operand (inHeader : Bool) : Reads c names (Operand names inHeader) (unary depth inHeader)
  postfixes (inHeader : Bool) (s : ParseState) (base : Built) (us : List Token) (t : Tree) :
    s.names = names → Denotes s base t → Postfixed names inHeader us t →
    (postfixChain depth base).Post c s
      (fun b s' => ∃ ts t', Took s s' ts ∧ Postfixed names inHeader (us ++ ts) t' ∧
        Denotes s' b t') fun _ => True
  infixes (inHeader : Bool) (least level : Nat) (s : ParseState) (lhs : Built)
      (us : List Token) (t : Tree) :
    1 ≤ least → least ≤ level → level ≤ 12 → StopsBelow c s (level + 1) →
    s.names = names → Denotes s lhs t → Infix names inHeader level us t →
    (infixChain depth inHeader least lhs).Post c s
      (fun b s' => ∃ ts t', Took s s' ts ∧ Infix names inHeader least (us ++ ts) t' ∧
        Denotes s' b t' ∧ StopsBelow c s' least) fun _ => True

/-- What is read from a unary expression on is an infix expression of the level. -/
theorem SoundAt.chain {depth : Nat} (h : SoundAt c names depth) (inHeader : Bool) (least : Nat)
    (hleast : 1 ≤ least) (hle : least ≤ 12) (s : ParseState) (hnames : s.names = names) :
    (do infixChain depth inHeader least (← unary depth inHeader) : Parser Built).Post c s
      (fun b s' => ∃ ts t, Took s s' ts ∧ Infix names inHeader least ts t ∧
        Denotes s' b t ∧ StopsBelow c s' least) fun _ => True := by
  rw [post_bind]
  refine (h.operand inHeader s hnames).imp ?_
  rintro b s₁ ⟨ts, t, took, hoperand, hb⟩
  have hstops : StopsBelow c s₁ (12 + 1) := fun p op hop => by
    have hlevel := infixOp?_level hop
    omega
  refine (h.infixes inHeader least 12 s₁ b ts t hleast hle (by omega) hstops
    (by rw [took.names, hnames]) hb (.operand hoperand)).imp ?_
  rintro b' s₂ ⟨us, t', took', hexpr, hb', hend⟩
  exact ⟨ts ++ us, t', took.trans took', hexpr, hb', hend⟩

theorem SoundAt.expr {depth : Nat} (h : SoundAt c names depth) (inHeader : Bool) :
    Reads c names (Infix names inHeader 1) (expr depth inHeader) := by
  intro s hnames
  refine (h.chain inHeader 1 (by omega) (by omega) s hnames).imp ?_
  rintro b s' ⟨ts, t, took, hexpr, hb, -⟩
  exact ⟨ts, t, took, hexpr, hb⟩

/-- Without levels nothing is read but the end of a chain. -/
theorem soundAt_zero : SoundAt c names 0 where
  operand inHeader s hnames := by
    unfold unary
    rw [post_tooDeep]
    trivial
  postfixes inHeader s base us t hnames hbase hpost := by
    unfold postfixChain
    rw [post_bind, post_current]
    split
    · rw [post_tooDeep]
      trivial
    · exact ⟨[], t, Took.refl s, by simpa using hpost, hbase⟩
  infixes inHeader least level s lhs us t hleast hle hlevel hstops hnames hlhs hexpr := by
    unfold infixChain
    rw [post_bind, post_current]
    have hdone : Infix names inHeader least (us ++ []) t := by
      simpa using hexpr.loosen hleast hle hlevel
    split
    · next p op hop =>
      split
      · next hp =>
        exact ⟨[], t, Took.refl s, hdone, hlhs, stopsBelow_of_lt hop hp⟩
      · rw [post_tooDeep]
        trivial
    · next hnone => exact ⟨[], t, Took.refl s, hdone, hlhs, stopsBelow_of_none hnone⟩

/-- One more level. An infix chain continues with an operand of its own level
and goes on at the operator that ended it. -/
theorem soundAt_succ (hstrict : c.mode = .strict) {depth : Nat} (ih : SoundAt c names depth) :
    SoundAt c names (depth + 1) where
  operand inHeader := by
    unfold unary
    refine prefixed_sound (ih.operand inHeader) fun s hnames => ?_
    rw [post_bind]
    refine (primary_sound hstrict (ih.expr false) inHeader s hnames).imp ?_
    rintro b s₁ ⟨ts, t, took, hprimary, hb⟩
    refine (ih.postfixes inHeader s₁ b ts t (by rw [took.names, hnames]) hb
      (.primary hprimary)).imp ?_
    rintro b' s₂ ⟨us, t', took', hpost, hb'⟩
    exact ⟨ts ++ us, t', took.trans took', hpost, hb'⟩
  postfixes inHeader s base us t hnames hbase hpost := by
    unfold postfixChain
    rw [post_bind, post_current]
    split
    · rw [post_bind]
      refine (postfixStep_sound hstrict (ih.expr false) hpost s hnames hbase).imp ?_
      rintro b s₁ ⟨ts, t', took, hpost', hb⟩
      refine (ih.postfixes inHeader s₁ b (us ++ ts) t' (by rw [took.names, hnames]) hb
        hpost').imp ?_
      rintro b' s₂ ⟨ts', t'', took', hpost'', hb'⟩
      exact ⟨ts ++ ts', t'', took.trans took', by rwa [← List.append_assoc], hb'⟩
    · exact ⟨[], t, Took.refl s, by simpa using hpost, hbase⟩
  infixes inHeader least level s lhs us t hleast hle hlevel hstops hnames hlhs hexpr := by
    unfold infixChain
    rw [post_bind, post_current]
    have hdone : Infix names inHeader least (us ++ []) t := by
      simpa using hexpr.loosen hleast hle hlevel
    split
    · next p op hop =>
      split
      · next hp =>
        exact ⟨[], t, Took.refl s, hdone, hlhs, stopsBelow_of_lt hop hp⟩
      · next hp =>
        have hrange := infixOp?_level hop
        have hpl : p < level + 1 := hstops p op hop
        have hk : (front c s).kind ≠ .eof := by
          intro heof
          simp [heof, TokenKind.infixOp?] at hop
        have tookSign : Took s s.next [front c s] := Took.front hk
        rw [post_bind, post_advance]
        have hrhs := ih.chain inHeader (p + 1) (by omega) (by omega) s.next
          (by rw [s.next_names, hnames])
        rw [post_bind] at hrhs ⊢
        refine hrhs.imp ?_
        intro operand s₀ hchain
        rw [post_bind]
        refine hchain.imp ?_
        rintro rhs s₁ ⟨rs, r, took, hright, hr, hend⟩
        have tookRight := tookSign.trans took
        rw [post_bind]
        refine post_build_tree (fun _ => trivial) fun whole s₂ grown hwhole => ?_
        have hl : Denotes s₁ lhs t := hlhs.later tookRight
        rw [InfixOp.node_map, hl.lookup, hr.lookup, hlhs.span, hr.span] at hwhole
        have hjoined : Infix names inHeader p (us ++ front c s :: rs)
            (.node (op.node t r) (t.span.to r.span)) :=
          .join (infixSign_iff.mpr hop) (hexpr.loosen hrange.1 (by omega) hlevel) hright
        have hstops' : StopsBelow c s₂ (p + 1) := by
          unfold StopsBelow
          rwa [grown.same_front]
        have hnames' : s₂.names = names := by
          rw [grown.names, took.names, s.next_names, hnames]
        refine (ih.infixes inHeader least p s₂ whole _ _ hleast (by omega) (by omega) hstops'
          hnames' hwhole hjoined).imp ?_
        rintro b s₃ ⟨ts, t', took', hexpr', hb, hend'⟩
        refine ⟨front c s :: (rs ++ ts), t', ?_, by simpa using hexpr', hb, hend'⟩
        simpa using tookRight.trans (grown.trans took')
    · next hnone => exact ⟨[], t, Took.refl s, hdone, hlhs, stopsBelow_of_none hnone⟩

/-- Whatever a strict reader accepts as an expression, at any depth. -/
theorem soundAt (hstrict : c.mode = .strict) (depth : Nat) : SoundAt c names depth := by
  induction depth with
  | zero => exact soundAt_zero
  | succ depth ih => exact soundAt_succ hstrict ih

end StagedCompiler.Parser
