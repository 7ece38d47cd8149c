import StagedCompiler.Proofs.Cursor.Runs

/-!
The machine follows every reader. Loops end because each round takes a token
and the reader's own bound counts tokens; recursion ends with the levels.
-/

namespace StagedCompiler.Cursor

open StagedCompiler.Parser (front)

/-! ### Lists and types -/

section

variable {α β : Type} {v : Stream} {d : Nat} {inHeader : Bool} {s : ParseState} {r : State}

theorem Ready.mono {extra extra' : Nat} (h : Ready v d extra s) (hle : extra ≤ extra') :
    Ready v d extra' s :=
  Nat.le_trans h (Nat.add_le_add_left hle _)

theorem Ready.later {extra : Nat} {s' : ParseState} (h : Ready v d extra s) (hlater : Later s s') :
    Ready v d extra s' := by
  have hconsumed := hlater.consumed
  unfold Ready at h ⊢
  omega

theorem Ready.opened {extra : Nat} (h : Ready v (d + 1) extra s) : Ready v d (extra + 1) s := by
  unfold Ready at h ⊢
  omega

/-- A token pays for two levels. -/
theorem Ready.taken {extra : Nat} {s' : ParseState} (h : Ready v d (extra + 2) s)
    (htaken : s.consumed < s'.consumed) : Ready v d extra s' := by
  unfold Ready at h ⊢
  omega

theorem consumed_next {t : Token} (ht : front v.settings s = t) (hk : t.kind ≠ .eof) :
    s.next.consumed = s.consumed + 1 :=
  s.next_consumed (Parser.rest_ne_nil (by rwa [ht]))

/-- Each round but the last takes a comma, so the reader's bound is never met. -/
theorem follows_entries {item : Nat → Machine α} {item' : Parser β} (f : β → α)
    (close : TokenKind) (h : At v d inHeader s r)
    (hitem : ∀ s' r', Later s s' → At v d inHeader s' r' →
      Follows v d item item' (Stays v d inHeader fun a b _ => a = f b) s' r')
    (fuel : Nat) (hfuel : s.rest.length < fuel) (done : Array β) (rounds : Nat) :
    Follows v d (fun n => entries close (item n) (n - rounds) (done.map f))
      (Parser.itemsUntil close item' fuel done)
      (Stays v d inHeader fun a b _ => a = b.map f) s r := by
  induction fuel generalizing s r done rounds with
  | zero => omega
  | succ fuel ih =>
    apply Follows.of_eventually (rounds + 1)
    · intro n hn
      rw [show n - rounds = n - (rounds + 1) + 1 by omega, entries]
    unfold Parser.itemsUntil
    apply Follows.isAt h
    rintro atClose -
    apply Follows.isAt h
    rintro atEnd -
    apply follows_ite
    · intro _
      exact follows_pure ⟨h, by simp⟩
    intro _
    apply (hitem s r (Later.refl s) h).bind
    rintro _ b s1 r1 hlater1 ⟨h1, rfl⟩
    apply (follows_eat h1 _).bind
    rintro _ more s2 r2 hlater2 ⟨h2, rfl, hmore⟩
    rw [← Array.map_push]
    rcases hmore with ⟨rfl, hcomma, rfl⟩ | ⟨rfl, -, rfl⟩
    · have hlater := hlater1.trans hlater2
      apply ih h2
      · intro s' r' hlater'
        exact hitem s' r' (hlater.trans hlater')
      · have hsize := h.size
        have hsize2 := h2.size
        have htaken := consumed_next rfl (by rw [hcomma]; simp)
        have hconsumed := hlater1.consumed
        omega
    · exact follows_pure ⟨h2, by simp⟩

/-- Lists agree if their items do, wherever these begin. -/
theorem follows_commaList {item : Nat → Machine α} {item' : Parser β} (f : β → α)
    (close : TokenKind) (h : At v d inHeader s r)
    (hitem : ∀ s' r', Later s s' → At v d inHeader s' r' →
      Follows v d item item' (Stays v d inHeader fun a b _ => a = f b) s' r') :
    Follows v d (fun n => entries close (item n) n #[]) (Parser.commaList close item')
      (Stays v d inHeader fun a b _ => a = b.map f) s r := by
  have hfuel : s.rest.length < v.settings.tokenCount + 1 := by
    have hsize := h.size
    have hcount := h.count
    omega
  have hrun := follows_entries f close h hitem _ hfuel #[] 0
  rw [Array.map_empty] at hrun
  exact Follows.consult rfl hrun

theorem follows_after {item : Nat → Machine α} {item' : Parser β} {R : α → β → ParseState → Prop}
    (k : TokenKind) (h : At v d inHeader s r)
    (hitem : ∀ r', (front v.settings s).kind = k → At v d inHeader s.next r' →
      Follows v d item item' (Stays v d inHeader R) s.next r') :
    Follows v d (fun n => after k (item n)) (Parser.after k item')
      (Stays v d inHeader fun a b s' => Option.Rel (R · · s') a b) s r := by
  unfold after Parser.after
  apply (follows_eat h k).bind
  rintro _ found s1 r1 - ⟨h1, rfl, ⟨rfl, hk, rfl⟩ | ⟨rfl, -, rfl⟩⟩
  · apply (hitem r1 hk h1).bind
    rintro a b s2 r2 - ⟨h2, hR⟩
    exact follows_pure ⟨h2, .some hR⟩
  · exact follows_pure ⟨h1, .none⟩

theorem follows_arrayLength (h : At v d inHeader s r) :
    Follows v d (fun _ => arrayLength) Parser.arrayLength
      (Stays v d inHeader fun a b _ => a = b) s r := by
  have hmissing (f : ParseFault) (span : Span) :
      Follows v d (fun _ => do fault f span; return 0) (do Parser.fault f span; return 0)
        (Stays v d inHeader fun (a b : Nat) _ => a = b) s r := by
    apply (follows_fault h f span).bind
    rintro _ _ s1 r1 - ⟨h1, -⟩
    exact follows_pure ⟨h1, rfl⟩
  unfold arrayLength Parser.arrayLength
  apply Follows.current h
  rintro ⟨kind, span⟩ -
  cases kind with
  | int n =>
    apply follows_ite
    · intro _
      apply (follows_advance h).bind
      rintro _ _ s1 r1 - ⟨h1, -⟩
      exact follows_pure ⟨h1, rfl⟩
    · intro _
      exact hmissing _ _
  | _ => exact hmissing _ _

theorem follows_type (h : At v d inHeader s r) (hready : Ready v d 1 s) :
    Follows v d type (Parser.type d) (Stays v d inHeader Made) s r := by
  induction d generalizing s r with
  | zero =>
    apply Follows.succ
    exact follows_enter_zero h (hready.mono (by omega))
  | succ d ih =>
    apply Follows.succ
    apply follows_level h (hready.mono (by omega))
    intro r1 h1
    have hbehind (s' : ParseState) (r' : State) (h' : At v d inHeader s' r')
        (htaken : s.consumed < s'.consumed) :
        Follows v d type (Parser.type d) (Stays v d inHeader Made) s' r' :=
      ih h' ((hready.opened.taken htaken).mono (by omega))
    have hmissing (f : ParseFault) (span : Span) :
        Follows v d
          (fun _ => do
            fault f span
            build (.namedType (← intern Parser.missingName)) span)
          (do
            Parser.fault f span
            Parser.build (.namedType (← Parser.intern Parser.missingName)) span)
          (Stays v d inHeader Made) s r1 := by
      apply (follows_fault h1 f span).bind
      rintro _ _ s2 r2 - ⟨h2, -⟩
      apply (follows_intern h2 _).bind
      rintro sym _ s3 r3 - ⟨h3, rfl, -⟩
      exact follows_build h3 _ _
    unfold Parser.type
    apply Follows.current h1
    rintro ⟨kind, span⟩ ht
    cases kind with
    | punct mark =>
      cases mark with
      | amp =>
        have htaken := consumed_next ht (by simp)
        apply (follows_advance h1).bind
        rintro _ _ _ r2 - ⟨h2, rfl⟩
        apply (follows_eat h2 _).bind
        rintro mutable _ s3 r3 hlater3 ⟨h3, rfl, -⟩
        have hconsumed := hlater3.consumed
        apply (hbehind s3 r3 h3 (by omega)).bind
        rintro _ inner s4 r4 - ⟨h4, hinner⟩
        exact follows_build_spanOf h4 hinner _ _
      | lbracket =>
        have htaken := consumed_next ht (by simp)
        apply (follows_advance h1).bind
        rintro _ _ _ r2 - ⟨h2, rfl⟩
        apply (hbehind _ r2 h2 (by omega)).bind
        rintro _ elem s3 r3 - ⟨h3, rfl, -⟩
        apply (follows_expect h3 _).bind
        rintro _ _ s4 r4 - ⟨h4, -⟩
        apply (follows_arrayLength h4).bind
        rintro len _ s5 r5 - ⟨h5, rfl⟩
        exact follows_expect_build h5 _ _ _
      | _ => exact hmissing _ _
    | ident sym =>
      have hrest := Parser.rest_eq_front (c := v.settings) (s := s) (by rw [ht]; simp)
      obtain ⟨text, htext⟩ := h1.known _ (by rw [hrest]; exact List.mem_cons_self) sym (by rw [ht])
      have htext2 : s.next.names.resolve? sym = some text := by rwa [s.next_names]
      apply (follows_advance h1).bind
      rintro _ _ _ r2 - ⟨h2, rfl⟩
      have hresolve : Parser.resolve sym v.settings s.next = .ok (text, s.next) := by
        rw [Parser.resolve, Interner.resolve, htext2, Option.getD_some]
      apply Follows.step (h2.run_resolve htext2) hresolve (Later.refl _)
      cases PrimType.ofName? text with
      | some prim => exact follows_build h2 _ _
      | none => exact follows_build h2 _ _
    | _ => exact hmissing _ _

end

/-! ### Expressions -/

section

variable {v : Stream} {d : Nat} {inHeader : Bool} {s : ParseState} {r : State}
  {nested operand bare : Nat → Machine NodeId} {nested' operand' bare' : Parser Built}

/-- From a state on, the machine follows a reader of nodes. -/
def Mirrors (v : Stream) (d : Nat) (inHeader : Bool) (m : Nat → Machine NodeId)
    (p : Parser Built) (s : ParseState) : Prop :=
  ∀ s' r', Later s s' → At v d inHeader s' r' →
    Follows v d m p (Stays v d inHeader Made) s' r'

theorem Mirrors.later {s' : ParseState} (h : Mirrors v d inHeader nested nested' s)
    (hlater : Later s s') : Mirrors v d inHeader nested nested' s' :=
  fun s'' r'' hlater' => h s'' r'' (hlater.trans hlater')

theorem Mirrors.follows (h : Mirrors v d inHeader nested nested' s) (hat : At v d inHeader s r) :
    Follows v d nested nested' (Stays v d inHeader Made) s r :=
  h s r (Later.refl s) hat

theorem follows_nodes (h : At v d inHeader s r) (hnested : Mirrors v d inHeader nested nested' s)
    (close : TokenKind) :
    Follows v d (fun n => entries close (nested n) n #[]) (Parser.commaList close nested')
      (Stays v d inHeader fun a b _ => a = b.map (·.id)) s r := by
  apply follows_commaList (fun b : Built => b.id) close h
  intro s' r' hlater h'
  apply (hnested s' r' hlater h').imp
  rintro id b s'' r'' ⟨hat, hid, -⟩
  exact ⟨hat, hid⟩

theorem follows_isAtStructBody (h : At v d inHeader s r) :
    Follows v d (fun _ => isAtStructBody) Parser.isAtStructBody
      (Stays v d inHeader fun a b _ => a = b) s r := by
  unfold isAtStructBody Parser.isAtStructBody
  apply Follows.isAt h
  rintro opened -
  apply follows_ite
  · intro _
    apply Follows.peek h
    rintro ⟨first, _⟩
    apply Follows.peek h
    rintro ⟨second, _⟩
    cases first with
    | punct mark => cases mark <;> exact follows_pure ⟨h, rfl⟩
    | ident sym =>
      cases second with
      | punct mark => cases mark <;> exact follows_pure ⟨h, rfl⟩
      | _ => exact follows_pure ⟨h, rfl⟩
    | _ => exact follows_pure ⟨h, rfl⟩
  · intro _
    exact follows_pure ⟨h, rfl⟩

theorem follows_fieldInit (h : At v d inHeader s r)
    (hnested : Mirrors v d inHeader nested nested' s) :
    Follows v d (fun n => fieldInit (nested n)) (Parser.fieldInit nested')
      (Stays v d inHeader fun a b _ => a = b) s r := by
  unfold fieldInit Parser.fieldInit
  apply (follows_expectIdent h).bind
  rintro ⟨name, span⟩ _ s1 r1 hlater1 ⟨h1, rfl⟩
  apply (follows_expect h1 _).bind
  rintro _ _ s2 r2 hlater2 ⟨h2, -⟩
  apply ((hnested.later (hlater1.trans hlater2)).follows h2).bind
  rintro _ value s3 r3 - ⟨h3, hvalue⟩
  apply Follows.lookup (h3.run_spanOf hvalue)
  rw [hvalue.1]
  exact follows_pure ⟨h3, rfl⟩

theorem follows_structLiteral (h : At v d inHeader s r)
    (hnested : Mirrors v d inHeader nested nested' s) (name : Symbol) (start : Span) :
    Follows v d (fun n => structLiteral n (nested n) name start)
      (Parser.structLiteral nested' name start) (Stays v d inHeader Made) s r := by
  unfold structLiteral Parser.structLiteral
  apply (follows_expect h _).bind
  rintro _ _ s1 r1 hlater1 ⟨h1, -⟩
  have hfields : Follows v d (fun n => entries (.punct .rbrace) (fieldInit (nested n)) n #[])
      (Parser.commaList (.punct .rbrace) (Parser.fieldInit nested'))
      (Stays v d inHeader fun a b _ => a = b.map id) s1 r1 := by
    apply follows_commaList id _ h1
    intro s' r' hlater h'
    exact follows_fieldInit h' (hnested.later (hlater1.trans hlater))
  apply hfields.bind
  rintro _ fields s2 r2 - ⟨h2, rfl⟩
  rw [List.map_id]
  exact follows_expect_build h2 _ _ _

theorem follows_arrayLiteral (h : At v d inHeader s r)
    (hfront : (front v.settings s).kind = .punct .lbracket)
    (hnested : Mirrors v d inHeader nested nested' s.next) :
    Follows v d (fun n => arrayLiteral n (nested n)) (Parser.arrayLiteral nested')
      (Stays v d inHeader Made) s r := by
  unfold arrayLiteral Parser.arrayLiteral
  apply (follows_expect h _).bind
  rintro start _ s1 r1 - ⟨h1, rfl, htaken⟩
  obtain ⟨-, rfl⟩ := htaken.resolve_right fun hne => hne.1 hfront
  apply (follows_nodes h1 hnested _).bind
  rintro _ elems s2 r2 - ⟨h2, rfl⟩
  exact follows_expect_build h2 _ _ _

theorem follows_literal (h : At v d inHeader s r) (kind : NodeKind Symbol NodeId) (span : Span) :
    Follows v d (fun _ => literal kind span) (Parser.literal kind span)
      (Stays v d inHeader Made) s r := by
  apply (follows_advance h).bind
  rintro _ _ s1 r1 - ⟨h1, -⟩
  exact follows_build h1 _ _

/-- What stands inside brackets is read behind the token that opens them. -/
theorem follows_primary (h : At v d inHeader s r)
    (hnested : s.consumed < s.next.consumed → Mirrors v d inHeader nested nested' s.next) :
    Follows v d (fun n => primary n (nested n)) (Parser.primary nested' inHeader)
      (Stays v d inHeader Made) s r := by
  unfold primary Parser.primary
  apply Follows.current h
  rintro ⟨kind, span⟩ ht
  dsimp only
  cases kind.literal? with
  | some node => exact follows_literal h node span
  | none =>
    have hmissing (f : ParseFault) :
        Follows v d (fun _ => do fault f span; build (.int 0) span)
          (do Parser.fault f span; Parser.build (.int 0) span) (Stays v d inHeader Made) s r := by
      apply (follows_fault h f span).bind
      rintro _ _ s1 r1 - ⟨h1, -⟩
      exact follows_build h1 _ _
    cases kind with
    | ident sym =>
      have htaken := consumed_next ht (by simp)
      apply (follows_advance h).bind
      rintro _ _ _ r1 - ⟨h1, rfl⟩
      have hheader : isInHeader v.setup r1 = some (some inHeader, r1) := by
        rw [isInHeader, h1.header]
      apply Follows.lookup hheader
      apply (follows_isAtStructBody h1).bind
      rintro opened _ s2 r2 hlater2 ⟨h2, rfl⟩
      apply follows_ite
      · intro _
        exact follows_structLiteral h2 ((hnested (by omega)).later hlater2) sym span
      · intro _
        exact follows_build h2 _ _
    | punct mark =>
      cases mark with
      | lparen =>
        have htaken := consumed_next ht (by simp)
        apply (follows_advance h).bind
        rintro _ _ _ r1 - ⟨h1, rfl⟩
        apply ((hnested (by omega)).follows h1).bind
        rintro id inner s2 r2 - ⟨h2, hinner⟩
        apply (follows_expect h2 _).bind
        rintro _ _ s3 r3 hlater3 ⟨h3, -⟩
        exact follows_pure ⟨h3, hinner.later hlater3⟩
      | lbracket =>
        have htaken := consumed_next ht (by simp)
        exact follows_arrayLiteral h (by rw [ht]) (hnested (by omega))
      | _ => exact hmissing _
    | _ => exact hmissing _

theorem follows_applyPrefix (h : At v d inHeader s r)
    (hoperand : Mirrors v d inHeader operand operand' s) (op : UnaryOp) (start : Span) :
    Follows v d (fun n => applyPrefix (operand n) op start)
      (Parser.applyPrefix operand' op start) (Stays v d inHeader Made) s r := by
  unfold applyPrefix Parser.applyPrefix
  apply (hoperand.follows h).bind
  rintro _ x s1 r1 - ⟨h1, hx⟩
  exact follows_build_spanOf h1 hx _ _

theorem follows_prefixed (h : At v d inHeader s r)
    (hoperand : s.consumed < s.next.consumed → Mirrors v d inHeader operand operand' s.next)
    (hbare : Follows v d bare bare' (Stays v d inHeader Made) s r) :
    Follows v d (fun n => prefixed (operand n) (bare n)) (Parser.prefixed operand' bare')
      (Stays v d inHeader Made) s r := by
  unfold prefixed Parser.prefixed
  apply Follows.current h
  rintro ⟨kind, span⟩ ht
  have happlied (hkind : kind ≠ .eof) (op : UnaryOp) :
      Follows v d (fun n => do advance; applyPrefix (operand n) op span)
        (do Parser.advance; Parser.applyPrefix operand' op span) (Stays v d inHeader Made) s r := by
    have htaken := consumed_next ht hkind
    apply (follows_advance h).bind
    rintro _ _ _ r1 - ⟨h1, rfl⟩
    exact follows_applyPrefix h1 (hoperand (by omega)) op span
  cases kind with
  | punct mark =>
    cases mark with
    | amp =>
      have htaken := consumed_next ht (by simp)
      apply (follows_advance h).bind
      rintro _ _ _ r1 - ⟨h1, rfl⟩
      apply (follows_eat h1 _).bind
      rintro mutable _ s2 r2 hlater2 ⟨h2, rfl, -⟩
      exact follows_applyPrefix h2 ((hoperand (by omega)).later hlater2) _ _
    | andAnd =>
      have htaken := consumed_next ht (by simp)
      apply (follows_advance h).bind
      rintro _ _ _ r1 - ⟨h1, rfl⟩
      apply Follows.current h1
      rintro t -
      apply (follows_applyPrefix h1 (hoperand (by omega)) _ _).bind
      rintro _ inner s2 r2 - ⟨h2, hinner⟩
      exact follows_build_spanOf h2 hinner _ _
    | bang => exact happlied (by simp) .not
    | minus => exact happlied (by simp) .neg
    | star => exact happlied (by simp) .deref
    | _ => exact hbare
  | _ => exact hbare

/-- A postfix operation takes the token that opens it. -/
theorem follows_postfixStep (h : At v d inHeader s r) {id : NodeId} {base : Built}
    (hbase : Made id base s) (hopens : Parser.opensPostfix (front v.settings s).kind = true)
    (hnested : s.consumed < s.next.consumed → Mirrors v d inHeader nested nested' s.next) :
    Follows v d (fun n => postfixStep n (nested n) id) (Parser.postfixStep nested' base)
      (Stays v d inHeader fun a b s' => Made a b s' ∧ s.consumed < s'.consumed) s r := by
  have htaken : s.next.consumed = s.consumed + 1 := by
    apply consumed_next rfl
    intro heof
    rw [heof] at hopens
    cases hopens
  have hmore := hnested (by omega)
  have hfrom {m : Nat → Machine NodeId} {p : Parser Built} {r1 : State}
      (hrun : Follows v d m p (Stays v d inHeader Made) s.next r1) :
      Follows v d m p (Stays v d inHeader fun a b s' => Made a b s' ∧ s.consumed < s'.consumed)
        s.next r1 := by
    apply hrun.with_later
    rintro a b s' r' hlater ⟨hat, hmade⟩
    exact ⟨hat, hmade, by have := hlater.consumed; omega⟩
  unfold postfixStep Parser.postfixStep
  apply Follows.current h
  rintro ⟨kind, span⟩ ht
  rw [ht] at hopens
  dsimp only at hopens ⊢
  have hbase1 := hbase.later (Later.next s)
  split
  · apply (follows_advance h).bind
    rintro _ _ _ r1 - ⟨h1, rfl⟩
    apply hfrom
    apply (follows_nodes h1 hmore _).bind
    rintro _ args s2 r2 hlater2 ⟨h2, rfl⟩
    apply (follows_expect h2 _).bind
    rintro close _ s3 r3 hlater3 ⟨h3, rfl, -⟩
    exact follows_build_spanOf h3 (hbase1.later (hlater2.trans hlater3)) (.call · _) _
  · apply (follows_advance h).bind
    rintro _ _ _ r1 - ⟨h1, rfl⟩
    apply hfrom
    apply (hmore.follows h1).bind
    rintro _ index s2 r2 hlater2 ⟨h2, rfl, -⟩
    apply (follows_expect h2 _).bind
    rintro close _ s3 r3 hlater3 ⟨h3, rfl, -⟩
    exact follows_build_spanOf h3 (hbase1.later (hlater2.trans hlater3)) (.index · _) _
  · apply (follows_advance h).bind
    rintro _ _ _ r1 - ⟨h1, rfl⟩
    apply hfrom
    apply (follows_expectIdent h1).bind
    rintro ⟨field, close⟩ _ s2 r2 hlater2 ⟨h2, rfl⟩
    exact follows_build_spanOf h2 (hbase1.later hlater2) (.fieldAccess · _) _
  · next hparen hbracket hdot =>
    exfalso
    unfold Parser.opensPostfix at hopens
    split at hopens
    · exact hparen rfl
    · exact hbracket rfl
    · exact hdot rfl
    · cases hopens

end

/-- The mutually recursive readers of expressions. An operand starts with one
more open level than the tokens pay for at most; a chain may have two, and each
of its operations takes a token for the level it opens. -/
structure Climbs (v : Stream) (d : Nat) : Prop where
  unary {inHeader : Bool} {s : ParseState} {r : State} :
    At v d inHeader s r → Ready v d 1 s →
      Follows v d unary (Parser.unary d inHeader) (Stays v d inHeader Made) s r
  postfixLoop {inHeader : Bool} {s : ParseState} {r : State} {id : NodeId} {base : Built} :
    At v d inHeader s r → Ready v d 2 s → Made id base s →
      Follows v d (postfixLoop · id) (Parser.postfixChain d base) (Sinks v d inHeader Made) s r
  infixLoop {inHeader : Bool} {s : ParseState} {r : State} {least : Nat} {id : NodeId}
      {lhs : Built} :
    At v d inHeader s r → Ready v d 2 s → Made id lhs s →
      Follows v d (infixLoop · least id) (Parser.infixChain d inHeader least lhs)
        (Sinks v d inHeader Made) s r

section

variable {v : Stream} {d : Nat} {inHeader : Bool} {s : ParseState} {r : State}

theorem Climbs.binary (hd : Climbs v d) (h : At v d inHeader s r) (hready : Ready v d 1 s)
    (least : Nat) :
    Follows v d (binary · least)
      (do Parser.infixChain d inHeader least (← Parser.unary d inHeader))
      (Stays v d inHeader Made) s r := by
  apply Follows.succ
  simp only [Cursor.binary]
  apply follows_restoring h
  apply (hd.unary h hready).bind
  rintro id lhs s1 r1 hlater1 ⟨h1, hlhs⟩
  exact hd.infixLoop h1 ((hready.later hlater1).mono (by omega)) hlhs

theorem Climbs.nested (hd : Climbs v d) (hready : Ready v d 1 s) :
    Mirrors v d inHeader (fun n => withHeader false (Cursor.binary n 1))
      (do Parser.infixChain d false 1 (← Parser.unary d false)) s := by
  intro s' r' hlater h'
  apply follows_withHeader false h'
  intro r1 h1
  exact hd.binary h1 (hready.later hlater) 1

/-- Without a level left both give up, and a chain that ends needs none. -/
theorem climbs_zero (v : Stream) : Climbs v 0 where
  unary h hready := by
    apply Follows.succ
    simp only [Cursor.unary, Parser.unary]
    exact follows_enter_zero h (hready.mono (by omega))
  postfixLoop h hready hbase := by
    apply Follows.succ
    simp only [Cursor.postfixLoop, Parser.postfixChain]
    apply Follows.current h
    rintro t -
    apply follows_ite
    · intro _
      exact follows_enter_zero h hready
    · intro _
      exact follows_pure ⟨⟨0, Nat.le_refl 0, h⟩, hbase⟩
  infixLoop h hready hlhs := by
    apply Follows.succ
    simp only [Cursor.infixLoop, Parser.infixChain]
    apply Follows.current h
    rintro t -
    cases t.kind.infixOp? with
    | none => exact follows_pure ⟨⟨0, Nat.le_refl 0, h⟩, hlhs⟩
    | some found =>
      dsimp only
      apply follows_ite
      · intro _
        exact follows_pure ⟨⟨0, Nat.le_refl 0, h⟩, hlhs⟩
      · intro _
        exact follows_enter_zero h hready

/-- A chain whose front token opened a level goes on with one level less. -/
theorem Sinks.succ {α β : Type} {R : α → β → ParseState → Prop} {a : α} {b : β}
    (h : Sinks v d inHeader R a b s r) : Sinks v (d + 1) inHeader R a b s r := by
  obtain ⟨⟨left, hle, hat⟩, hR⟩ := h
  exact ⟨⟨left, Nat.le_succ_of_le hle, hat⟩, hR⟩

/-- A level is paid for by the tokens that open it. -/
theorem climbs_succ (hd : Climbs v d) : Climbs v (d + 1) where
  unary {inHeader s _} h hready := by
    -- behind a token the operand is as well paid for as its prefix was
    have hbehind (s' : ParseState) (htaken : s.consumed < s'.consumed) : Ready v d 1 s' :=
      (hready.opened.taken htaken).mono (by omega)
    apply Follows.succ
    simp only [Cursor.unary, Parser.unary]
    apply follows_level h (hready.mono (by omega))
    intro r1 h1
    apply follows_prefixed h1
    · intro htaken s' r' hlater h'
      exact hd.unary h' ((hbehind _ htaken).later hlater)
    · apply Follows.succ
      simp only [postfixed]
      apply follows_restoring h1
      apply (follows_primary h1 fun htaken => hd.nested (hbehind _ htaken)).bind
      rintro id base s2 r2 hlater2 ⟨h2, hbase⟩
      exact hd.postfixLoop h2 (hready.opened.later hlater2) hbase
  postfixLoop {inHeader s _ _ _} h hready hbase := by
    apply Follows.succ
    simp only [Cursor.postfixLoop, Parser.postfixChain]
    apply Follows.current h
    rintro t ht
    apply follows_ite
    · intro hopens
      apply Follows.enter h hready
      intro r1 h1
      have hbehind (s' : ParseState) (htaken : s.consumed < s'.consumed) : Ready v d 1 s' :=
        hready.opened.taken htaken
      have hstep := follows_postfixStep h1 hbase (by rwa [ht]) fun htaken =>
        hd.nested (hbehind _ htaken)
      have hwhole := hstep.bind fun id whole s2 r2 _ hmade =>
        hd.postfixLoop hmade.1 ((hbehind s2 hmade.2.2).mono (by omega)) hmade.2.1
      exact hwhole.mono (by omega) fun _ _ _ _ => Sinks.succ
    · intro _
      exact follows_pure ⟨⟨d + 1, Nat.le_refl _, h⟩, hbase⟩
  infixLoop {inHeader s _ least _ lhs} h hready hlhs := by
    apply Follows.succ
    simp only [Cursor.infixLoop, Parser.infixChain]
    apply Follows.current h
    rintro t ht
    cases hop : t.kind.infixOp? with
    | none => exact follows_pure ⟨⟨d + 1, Nat.le_refl _, h⟩, hlhs⟩
    | some found =>
      obtain ⟨precedence, op⟩ := found
      dsimp only
      apply follows_ite
      · intro _
        exact follows_pure ⟨⟨d + 1, Nat.le_refl _, h⟩, hlhs⟩
      intro _
      apply Follows.enter h hready
      intro r1 h1
      have hkind : t.kind ≠ .eof := by
        intro heof
        rw [heof] at hop
        cases hop
      have htaken := consumed_next ht hkind
      have hbehind : Ready v d 1 s.next := hready.opened.taken (by omega)
      apply Follows.mono _ (Nat.le_succ d) fun _ _ _ _ => Sinks.succ
      apply (follows_advance h1).bind
      rintro _ _ _ r2 - ⟨h2, rfl⟩
      apply Follows.assoc
      apply (hd.binary h2 hbehind (precedence + 1)).bind
      rintro _ rhs s3 r3 hlater3 ⟨h3, hrhs⟩
      have hlhs3 := hlhs.later ((Later.next s).trans hlater3)
      apply Follows.lookup (h3.run_spanOf hlhs3)
      apply Follows.lookup (h3.run_spanOf hrhs)
      rw [hlhs.1, hrhs.1]
      apply (follows_build h3 _ _).bind
      rintro id whole s4 r4 hlater4 ⟨h4, hwhole⟩
      apply hd.infixLoop h4 _ hwhole
      exact (hbehind.later (hlater3.trans hlater4)).mono (by omega)

theorem climbs (v : Stream) (d : Nat) : Climbs v d := by
  induction d with
  | zero => exact climbs_zero v
  | succ d ih => exact climbs_succ ih

end

/-! ### Statements -/

section

variable {v : Stream} {d : Nat} {inHeader : Bool} {s : ParseState} {r : State}

theorem follows_expr (h : At v d inHeader s r) (hready : Ready v d 1 s) :
    Follows v d expr (Parser.expr d inHeader) (Stays v d inHeader Made) s r :=
  (climbs v d).binary h hready 1

theorem follows_header (h : At v d inHeader s r) (hready : Ready v d 1 s) :
    Follows v d header (Parser.expr d true) (Stays v d inHeader Made) s r := by
  apply follows_withHeader true h
  intro r1 h1
  exact follows_expr h1 hready

theorem ids_of_rel {id : Option NodeId} {b : Option Built}
    (h : Option.Rel (Made · · s) id b) : id = b.map (·.id) := by
  cases h with
  | none => rfl
  | some hmade => rw [Option.map_some, hmade.1]

theorem Made.getD {id : Option NodeId} {b : Option Built} {id' : NodeId} {b' : Built}
    (h : Option.Rel (Made · · s) id b) (h' : Made id' b' s) : Made (id.getD id') (b.getD b') s := by
  cases h with
  | none => exact h'
  | some hmade => exact hmade

theorem follows_letStmt (h : At v d false s r) (hready : Ready v d 1 s) :
    Follows v d letStmt (Parser.letStmt d) (Stays v d false Made) s r := by
  unfold letStmt Parser.letStmt
  apply (follows_expect h _).bind
  rintro start _ s1 r1 hlater1 ⟨h1, rfl, -⟩
  apply (follows_eat h1 _).bind
  rintro mutable _ s2 r2 hlater2 ⟨h2, rfl, -⟩
  apply (follows_expectIdent h2).bind
  rintro ⟨name, span⟩ _ s3 r3 hlater3 ⟨h3, rfl⟩
  have hready3 := hready.later ((hlater1.trans hlater2).trans hlater3)
  apply (follows_after _ h3 fun r' _ h' => follows_type h' (hready3.later (Later.next s3))).bind
  rintro _ ty s4 r4 hlater4 ⟨h4, hty⟩
  have hready4 := hready3.later hlater4
  apply (follows_after _ h4 fun r' _ h' => follows_expr h' (hready4.later (Later.next s4))).bind
  rintro _ init s5 r5 - ⟨h5, hinit⟩
  apply (follows_expect h5 _).bind
  rintro close _ s6 r6 - ⟨h6, rfl, -⟩
  rw [ids_of_rel hty, ids_of_rel hinit]
  exact follows_build h6 _ _

theorem follows_returnStmt (h : At v d false s r) (hready : Ready v d 1 s) (start : Span) :
    Follows v d (returnStmt · start) (Parser.returnStmt d start) (Stays v d false Made) s r := by
  unfold returnStmt Parser.returnStmt
  apply (follows_advance h).bind
  rintro _ _ _ r1 - ⟨h1, rfl⟩
  apply Follows.isAt h1
  rintro atEnd -
  apply Follows.isAt h1
  rintro atBrace -
  have hclose {id : Option NodeId} {value : Option Built} {s2 : ParseState} {r2 : State}
      (h2 : At v d false s2 r2) (hid : id = value.map (·.id)) :
      Follows v d
        (fun _ => do
          let close ← expect (.punct .semicolon)
          build (.returnStmt id) (start.to close))
        (do
          let close ← Parser.expect (.punct .semicolon)
          Parser.build (.returnStmt (value.map (·.id))) (start.to close))
        (Stays v d false Made) s2 r2 := by
    apply (follows_expect h2 _).bind
    rintro close _ s3 r3 - ⟨h3, rfl, -⟩
    rw [hid]
    exact follows_build h3 _ _
  apply follows_ite
  · intro _
    exact Follows.step rfl rfl (Later.refl _) (hclose h1 rfl)
  · intro _
    have hvalue := (follows_expr h1 (hready.later (Later.next s))).map (f := some) (g := some)
      (T := Stays v d false fun a b _ => a = b.map (·.id))
      fun _ _ _ _ hb => ⟨hb.1, congrArg some hb.2.1⟩
    apply hvalue.bind
    rintro id value s2 r2 - ⟨h2, hid⟩
    exact hclose h2 hid

theorem follows_jump (h : At v d inHeader s r) (kind : NodeKind Symbol NodeId) (start : Span) :
    Follows v d (fun _ => jump kind start) (Parser.jump kind start)
      (Stays v d inHeader Made) s r := by
  apply (follows_advance h).bind
  rintro _ _ s1 r1 - ⟨h1, -⟩
  exact follows_expect_build h1 _ _ _

theorem follows_exprOrAssign (h : At v d false s r) (hready : Ready v d 1 s) :
    Follows v d exprOrAssign (Parser.exprOrAssign d) (Stays v d false Made) s r := by
  unfold exprOrAssign Parser.exprOrAssign
  apply (follows_expr h hready).bind
  rintro id lhs s1 r1 hlater1 ⟨h1, hlhs⟩
  apply Follows.lookup (h1.run_spanOf hlhs)
  rw [hlhs.1]
  apply Follows.current h1
  rintro t -
  cases t.kind.assignOp? with
  | none =>
    dsimp only
    exact follows_expect_build h1 _ _ _
  | some op =>
    dsimp only
    apply Follows.lookup (h1.run_node ⟨rfl, hlhs.2⟩)
    have hassign {s2 : ParseState} {r2 : State} (h2 : At v d false s2 r2)
        (hready2 : Ready v d 1 s2) :
        Follows v d
          (fun n => do
            advance
            let value ← expr n
            let close ← expect (.punct .semicolon)
            build (.assign lhs.id op value) (lhs.span.to close))
          (do
            Parser.advance
            let value ← Parser.expr d false
            let close ← Parser.expect (.punct .semicolon)
            Parser.build (.assign lhs.id op value.id) (lhs.span.to close))
          (Stays v d false Made) s2 r2 := by
      apply (follows_advance h2).bind
      rintro _ _ _ r3 - ⟨h3, rfl⟩
      apply (follows_expr h3 (hready2.later (Later.next s2))).bind
      rintro _ value s4 r4 - ⟨h4, rfl, -⟩
      exact follows_expect_build h4 _ _ _
    apply follows_ite
    · intro _
      apply (follows_fault h1 _ _).bind
      rintro _ _ s2 r2 hlater2 ⟨h2, -⟩
      exact hassign h2 (hready.later (hlater1.trans hlater2))
    · intro _
      exact hassign h1 (hready.later hlater1)

/-- Each round takes a token, if need be the one that was in the way. -/
theorem follows_stmtLoop {stmt : Nat → Machine NodeId} {stmt' : Parser Built}
    (h : At v d false s r) (hstmt : Mirrors v d false stmt stmt' s) (fuel : Nat)
    (hfuel : s.rest.length < fuel) (done : Array NodeId) (rounds : Nat) :
    Follows v d (fun n => stmtLoop (stmt n) (n - rounds) done) (Parser.stmtsUntil stmt' fuel done)
      (Stays v d false fun a b _ => a = b) s r := by
  induction fuel generalizing s r done rounds with
  | zero => omega
  | succ fuel ih =>
    apply Follows.of_eventually (rounds + 1)
    · intro n hn
      rw [show n - rounds = n - (rounds + 1) + 1 by omega, stmtLoop]
    have hsize := h.size
    unfold Parser.stmtsUntil
    apply Follows.isAt h
    rintro atBrace -
    apply Follows.isAt h
    rintro atEnd hatEnd
    apply follows_ite
    · intro _
      exact follows_pure ⟨h, rfl⟩
    intro hgo
    have hmore : (front v.settings s).kind ≠ .eof := by
      intro heof
      simp [hatEnd, heof] at hgo
    have hrest : 0 < s.rest.length := List.length_pos_iff.mpr (Parser.rest_ne_nil hmore)
    apply (follows_eat h _).bind
    rintro _ lone s1 r1 hlater1 ⟨h1, rfl, ⟨rfl, -, rfl⟩ | ⟨rfl, -, rfl⟩⟩
    · have htaken := consumed_next rfl hmore
      have hsize1 := h1.size
      exact ih h1 (hstmt.later hlater1) (by omega) done (rounds + 1)
    · apply Follows.step h1.run_cursor rfl (Later.refl _)
      apply (hstmt.follows h1).bind
      rintro id b s2 r2 hlater2 ⟨h2, rfl, -⟩
      apply Follows.step h2.run_cursor rfl (Later.refl _)
      have hsize2 := h2.size
      have hconsumed := hlater2.consumed
      apply follows_ite
      · intro hsame
        apply (follows_advance h2).bind
        rintro _ _ _ r3 hlater3 ⟨h3, rfl⟩
        have hrest2 : s2.rest ≠ [] := by
          intro hnil
          rw [hnil, List.length_nil] at hsize2
          omega
        have htaken := s2.next_consumed hrest2
        have hsize3 := h3.size
        exact ih h3 (hstmt.later (hlater2.trans hlater3)) (by omega) done (rounds + 1)
      · intro hmoved
        exact ih h2 (hstmt.later hlater2) (by omega) (done.push b.id) (rounds + 1)

theorem follows_braced {stmt : Nat → Machine NodeId} {stmt' : Parser Built}
    (h : At v d false s r)
    (hstmt : ∀ s', s'.consumed = s.consumed ∧ (front v.settings s).kind ≠ .punct .lbrace ∨
      s.consumed < s'.consumed → Mirrors v d false stmt stmt' s') :
    Follows v d (fun n => braced n (stmt n)) (Parser.braced stmt') (Stays v d false Made) s r := by
  unfold braced Parser.braced
  apply (follows_expect h _).bind
  rintro start _ s1 r1 - ⟨h1, rfl, hfront⟩
  have hmirrors : Mirrors v d false stmt stmt' s1 := by
    apply hstmt
    rcases hfront with ⟨hk, rfl⟩ | ⟨hk, hsame⟩
    · have htaken := consumed_next rfl (by rw [hk]; simp)
      exact .inr (by omega)
    · exact .inl ⟨hsame, hk⟩
  have hfuel : s1.rest.length < v.settings.tokenCount + 1 := by
    have hsize := h1.size
    have hcount := h1.count
    omega
  apply Follows.consult rfl
  apply (follows_stmtLoop h1 hmirrors _ hfuel #[] 0).bind
  rintro stmts _ s2 r2 - ⟨h2, rfl⟩
  exact follows_expect_build h2 _ _ _

end

/-- The mutually recursive readers of statements. A block that stands where a
statement does opens its level together with a brace; one behind a header has
the header's keyword to pay for it. -/
structure Nests (v : Stream) (d : Nat) : Prop where
  block {s : ParseState} {r : State} :
    At v d false s r →
      Ready v d 0 s ∨ Ready v d 1 s ∧ (front v.settings s).kind = .punct .lbrace →
        Follows v d block (Parser.block d) (Stays v d false Made) s r
  conditional {s : ParseState} {r : State} :
    At v d false s r → Ready v d 1 s → (front v.settings s).kind = .keyword .ifKw →
      Follows v d conditional (Parser.conditional d) (Stays v d false Made) s r

section

variable {v : Stream} {d : Nat} {s : ParseState} {r : State}

/-- A statement opens levels only together with a token that it takes. -/
theorem Nests.stmt (hd : Nests v d) (h : At v d false s r) (hready : Ready v d 1 s) :
    Follows v d (fun n => stmt n (Cursor.block n) (Cursor.conditional n))
      (Parser.stmt d (Parser.block d) (Parser.conditional d)) (Stays v d false Made) s r := by
  unfold Cursor.stmt Parser.stmt
  apply Follows.current h
  rintro ⟨kind, span⟩ ht
  have hbehind (htaken : s.next.consumed = s.consumed + 1) : Ready v d 0 s.next :=
    (hready.mono (by omega)).taken (by omega)
  cases kind with
  | punct mark =>
    cases mark with
    | lbrace => exact hd.block h (.inr ⟨hready, by rw [ht]⟩)
    | _ => exact follows_exprOrAssign h hready
  | keyword word =>
    cases word with
    | letKw => exact follows_letStmt h hready
    | returnKw => exact follows_returnStmt h hready span
    | ifKw => exact hd.conditional h hready (by rw [ht])
    | whileKw =>
      have hready1 := hbehind (consumed_next ht (by simp))
      apply (follows_advance h).bind
      rintro _ _ _ r1 - ⟨h1, rfl⟩
      apply (follows_header h1 (hready1.mono (by omega))).bind
      rintro _ cond s2 r2 hlater2 ⟨h2, rfl, -⟩
      apply (hd.block h2 (.inl (hready1.later hlater2))).bind
      rintro _ body s3 r3 - ⟨h3, hbody⟩
      exact follows_build_spanOf h3 hbody _ _
    | forKw =>
      have hready1 := hbehind (consumed_next ht (by simp))
      apply (follows_advance h).bind
      rintro _ _ _ r1 - ⟨h1, rfl⟩
      apply (follows_expectIdent h1).bind
      rintro ⟨var, varSpan⟩ _ s2 r2 hlater2 ⟨h2, rfl⟩
      apply (follows_expect h2 _).bind
      rintro _ _ s3 r3 hlater3 ⟨h3, -⟩
      have hready3 := hready1.later (hlater2.trans hlater3)
      apply (follows_header h3 (hready3.mono (by omega))).bind
      rintro _ iter s4 r4 hlater4 ⟨h4, rfl, -⟩
      apply (hd.block h4 (.inl (hready3.later hlater4))).bind
      rintro _ body s5 r5 - ⟨h5, hbody⟩
      exact follows_build_spanOf h5 hbody _ _
    | breakKw => exact follows_jump h _ span
    | continueKw => exact follows_jump h _ span
    | _ => exact follows_exprOrAssign h hready
  | _ => exact follows_exprOrAssign h hready

theorem Nests.ifElse (hd : Nests v d) (h : At v d false s r)
    (hif : (front v.settings s).kind = .keyword .ifKw) (hready : Ready v d 0 s.next) :
    Follows v d (fun n => ifElse n (Cursor.block n) (Cursor.conditional n))
      (Parser.ifElse d (Parser.block d) (Parser.conditional d)) (Stays v d false Made) s r := by
  unfold Cursor.ifElse Parser.ifElse
  apply (follows_expect h _).bind
  rintro start _ s1 r1 - ⟨h1, rfl, hfront⟩
  obtain ⟨-, rfl⟩ := hfront.resolve_right fun hne => hne.1 hif
  apply (follows_header h1 (hready.mono (by omega))).bind
  rintro _ cond s2 r2 hlater2 ⟨h2, rfl, -⟩
  have hready2 := hready.later hlater2
  apply (hd.block h2 (.inl hready2)).bind
  rintro _ thenBranch s3 r3 hlater3 ⟨h3, hthen⟩
  have hready3 := (hready2.later hlater3).later (Later.next s3)
  have helse (r' : State) (h' : At v d false s3.next r') :
      Follows v d
        (fun n => do if ← isAt (.keyword .ifKw) then Cursor.conditional n else Cursor.block n)
        (do if ← Parser.isAt (.keyword .ifKw) then Parser.conditional d else Parser.block d)
        (Stays v d false Made) s3.next r' := by
    apply Follows.isAt h'
    rintro found hfound
    apply follows_ite
    · intro hif'
      exact hd.conditional h' (hready3.mono (by omega)) (of_decide_eq_true (hfound ▸ hif'))
    · intro _
      exact hd.block h' (.inl hready3)
  apply (follows_after _ h3 fun r' _ => helse r').bind
  rintro _ elseBranch s4 r4 hlater4 ⟨h4, helse4⟩
  have hlast := Made.getD helse4 (hthen.later hlater4)
  apply Follows.lookup (h4.run_spanOf hlast)
  rw [ids_of_rel helse4, hthen.1]
  exact follows_build h4 _ _

/-- Blocks and conditionals, by induction on the levels that are left. -/
theorem nests (v : Stream) (d : Nat) : Nests v d := by
  induction d with
  | zero =>
    refine ⟨fun {s r} h hready => ?_, fun {s r} h hready _ => ?_⟩
    · apply Follows.succ
      simp only [block, Parser.block]
      apply follows_enter_zero h
      rcases hready with hready | ⟨hready, -⟩
      · exact hready.mono (by omega)
      · exact hready.mono (by omega)
    · apply Follows.succ
      simp only [conditional, Parser.conditional]
      exact follows_enter_zero h (hready.mono (by omega))
  | succ d ih =>
    refine ⟨fun {s r} h hready => ?_, fun {s r} h hready hif => ?_⟩
    · have hready2 : Ready v (d + 1) 2 s := by
        rcases hready with hready | ⟨hready, -⟩
        · exact hready.mono (by omega)
        · exact hready.mono (by omega)
      apply Follows.succ
      simp only [block, Parser.block]
      apply follows_level h hready2
      intro r1 h1
      apply follows_braced h1
      intro s2 hs2 s' r' hlater h'
      apply ih.stmt h'
      have hconsumed := hlater.consumed
      unfold Ready at hready ⊢
      rcases hs2 with ⟨hsame, hne⟩ | htaken
      · rcases hready with hready | ⟨-, hbrace⟩
        · omega
        · exact absurd hbrace hne
      · omega
    · apply Follows.succ
      simp only [conditional, Parser.conditional]
      apply follows_level h (hready.mono (by omega))
      intro r1 h1
      apply ih.ifElse h1 hif
      have htaken := consumed_next rfl (by rw [hif]; simp)
      exact hready.opened.taken (by omega)

end

end StagedCompiler.Cursor
