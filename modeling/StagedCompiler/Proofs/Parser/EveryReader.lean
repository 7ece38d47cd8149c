import StagedCompiler.Proofs.Parser.ReaderBonds

/-!
What holds of every reader. A judgement that the steps and sequencing keep is
kept by all readers, up to the reader of whole programs.
-/

namespace StagedCompiler.Parser

open Bond (Same Each Maybe)

section

variable {W α β : Type} {bond : Bond W}
  {P : (α : Type) → W → (W → α → α → Prop) → Parser α → Parser α → Prop} {w : W}
  {R : W → α → α → Prop} {Q : W → β → β → Prop}

/-! ### Steps and lists -/

theorem kept_ite (q : Prop) [Decidable q] {p p' r r' : Parser α} (hp : P α w R p p')
    (hr : P α w R r r') : P α w R (if q then p else r) (if q then p' else r') := by
  split
  · exact hp
  · exact hr

theorem Bond.Steps.sub (h : bond.Steps P) {k k' : Part} {p p' : Parser Built}
    (hp : P Built w (bond.Node k) p p') (hsub : k.Sub k') : P Built w (bond.Node k') p p' := by
  rw [← bind_pure p, ← bind_pure p']
  exact h.bind hp fun _ _ _ _ hb => h.pure (hb.sub hsub)

/-- A look at the front token alone. -/
theorem Bond.Steps.keeps_isAt (h : bond.Steps P) (k : TokenKind) {f f' : Bool → Parser β}
    (hf : ∀ found, P β w Q (f found) (f' found)) :
    P β w Q (isAt k >>= f) (isAt k >>= f') := by
  have hrun (f : Bool → Parser β) :
      Parser.isAt k >>= f = Parser.current >>= fun t => f (decide (t.kind = k)) := by
    rw [Parser.isAt, bind_assoc]
    simp only [pure_bind]
  rw [hrun, hrun]
  exact h.current fun _ _ _ _ _ => hf _

theorem Bond.Steps.keeps_eat (h : bond.Steps P) (k : TokenKind) :
    P Bool w Same (eat k) (eat k) := by
  refine h.keeps_isAt k fun found => ?_
  cases found with
  | true => exact h.bind h.advance fun _ _ _ _ _ => h.pure rfl
  | false => exact h.pure rfl

theorem Bond.Steps.keeps_expect (h : bond.Steps P) (k : TokenKind) :
    P Span w bond.Place (expect k) (expect k) := by
  refine h.current fun _ _ _ _ hspan => kept_ite _ ?_ ?_
  · exact h.bind h.advance fun _ _ _ _ _ => h.pure hspan
  · exact h.bind (h.fault _ hspan) fun _ _ _ _ _ => h.pure hspan

theorem Bond.Steps.keeps_expectIdent (h : bond.Steps P) :
    P _ w bond.Named expectIdent expectIdent := by
  refine h.current fun kind span span' hknown hspan => ?_
  dsimp only
  split
  · exact h.bind h.advance fun _ _ _ _ _ =>
      h.pure ⟨⟨rfl, bond.name_of_known hknown⟩, hspan⟩
  · have hassoc (f : ParseFault) (span : Span) :
        (do Parser.fault f span; return (← intern missingName, span)) =
          (do Parser.fault f span; intern missingName : Parser Symbol) >>=
            fun sym => return (sym, span) := by
      rw [bind_assoc]
    rw [hassoc, hassoc]
    exact h.bind (h.missing _ hspan) fun _ _ _ _ hword => h.pure ⟨hword, hspan⟩

/-- The loop over items, by induction on its rounds. -/
theorem kept_itemsUntil [bond.Fact R] (h : bond.Steps P) (close : TokenKind)
    {item item' : Parser α} (hitem : ∀ w, P α w R item item') (fuel : Nat)
    {done done' : Array α} (hdone : Each R w done.toList done'.toList) :
    P _ w (Each R) (itemsUntil close item fuel done) (itemsUntil close item' fuel done') := by
  induction fuel generalizing w done done' with
  | zero => exact h.pure hdone
  | succ fuel ih =>
    unfold itemsUntil
    refine h.keeps_isAt _ fun atClose => h.keeps_isAt _ fun atEnd => ?_
    refine kept_ite _ (h.pure hdone) ?_
    refine h.bind (hitem w) fun x x' w1 hw1 hx => ?_
    refine h.bind (h.keeps_eat _) fun more _ w2 hw2 hmore => ?_
    cases hmore
    have hdone2 := Bond.Fact.later (bond.trans hw1 hw2) hdone
    have hpushed := hdone2.push (Bond.Fact.later hw2 hx)
    exact kept_ite _ (ih hpushed) (h.pure hpushed)

theorem Bond.Steps.keeps_after [bond.Fact R] (h : bond.Steps P) (k : TokenKind)
    {item item' : Parser α} (hitem : ∀ w, P α w R item item') :
    P _ w (Maybe R) (after k item) (after k item') := by
  refine h.bind (h.keeps_eat k) fun found _ w1 _ hfound => ?_
  cases hfound
  refine kept_ite _ ?_ (h.pure .none)
  exact h.bind (hitem w1) fun _ _ _ _ hx => h.pure (.some hx)

end

/-! ### Loops -/

section

variable {W : Type} {bond : Bond W}
  {P : (α : Type) → W → (W → α → α → Prop) → Parser α → Parser α → Prop} {w : W} {n : Nat}
  {stmt stmt' : Parser Built}

/-- The loop over statements asks for the number of tokens taken. -/
theorem kept_stmtsUntil (h : bond.Stepwise P) (hstmt : bond.Makes P (.stmt n) stmt stmt')
    (fuel : Nat) {done done' : Array NodeId}
    (hdone : Each (bond.Id (.stmt n)) w done.toList done'.toList) :
    P _ w (Each (bond.Id (.stmt n))) (stmtsUntil stmt fuel done) (stmtsUntil stmt' fuel done') := by
  induction fuel generalizing w done done' with
  | zero => exact h.pure hdone
  | succ fuel ih =>
    unfold stmtsUntil
    refine h.keeps_isAt _ fun atBrace => h.keeps_isAt _ fun atEnd => ?_
    refine kept_ite _ (h.pure hdone) ?_
    refine h.bind (h.keeps_eat _) fun lone _ w1 hw1 hlone => ?_
    cases hlone
    have hdone1 := Bond.Fact.later hw1 hdone
    refine kept_ite _ (ih hdone1) (h.consumed fun before => ?_)
    refine h.bind (hstmt w1) fun b b' w2 hw2 hb => h.consumed fun now => ?_
    have hdone2 := Bond.Fact.later hw2 hdone1
    refine kept_ite _ ?_ ?_
    · exact h.bind h.advance fun _ _ w3 hw3 _ => ih (Bond.Fact.later hw3 hdone2)
    · exact ih (hdone2.push hb.id)

/-- If both runs have the same number of rounds, their loops go on side by
side. -/
theorem Bond.Stepwise.kept (h : bond.Stepwise P) : bond.Kept P where
  toSteps := h.toSteps
  isAtStructBody := by
    refine h.keeps_isAt _ fun opened => kept_ite _ ?_ (h.pure rfl)
    refine h.peek 1 fun first _ _ => h.peek 2 fun second _ _ => ?_
    dsimp only
    split
    · exact h.pure rfl
    · exact h.pure rfl
    · exact h.pure rfl
  commaList close hitem := h.rounds fun fuel => kept_itemsUntil h.toSteps close hitem fuel .nil
  stmts hstmt := h.rounds fun fuel => kept_stmtsUntil h hstmt fuel .nil

end

/-! ### Types and expressions -/

section

variable {W : Type} {bond : Bond W}
  {P : (α : Type) → W → (W → α → α → Prop) → Parser α → Parser α → Prop} {w : W} {n m : Nat}
  {nested nested' operand operand' bare bare' : Parser Built}

theorem kept_arrayLength (h : bond.Kept P) : P Nat w Same arrayLength arrayLength := by
  refine h.current fun kind span span' _ hspan => ?_
  have hmissing (f : ParseFault) :
      P Nat w Same (do fault f span; return 0) (do fault f span'; return 0) :=
    h.bind (h.fault f hspan) fun _ _ _ _ _ => h.pure rfl
  dsimp only
  split
  · refine kept_ite _ ?_ (hmissing _)
    exact h.bind h.advance fun _ _ _ _ _ => h.pure rfl
  · exact hmissing _

/-- Types, by induction on the levels that are left. -/
theorem kept_type (h : bond.Kept P) {depth depth' : Nat} (hd : bond.level depth depth') :
    bond.Makes P (.type depth) (type depth) (type depth') := by
  induction depth generalizing depth' with
  | zero =>
    refine fun w => h.tooDeep fun heven => ?_
    rw [bond.level_zero hd heven, type]
  | succ depth ih =>
    obtain ⟨d, rfl, hsub⟩ := bond.level_succ hd
    intro w
    unfold type
    refine h.current fun kind span span' hknown hspan => ?_
    dsimp only
    split
    · refine h.bind h.advance fun _ _ w1 _ _ => ?_
      refine h.bind (h.keeps_eat _) fun mutable _ w2 _ hmutable => ?_
      cases hmutable
      refine h.bind (ih hsub w2) fun inner inner' w3 _ hinner => ?_
      exact h.build (.ref mutable hinner.id) (bond.place_to hspan hinner.place)
    · refine h.bind h.advance fun _ _ w1 _ _ => ?_
      refine h.bind (ih hsub w1) fun elem elem' w2 _ helem => ?_
      refine h.bind (h.keeps_expect _) fun _ _ w3 hw3 _ => ?_
      refine h.bind (kept_arrayLength h) fun len _ w4 hw4 hlen => ?_
      cases hlen
      refine h.bind (h.keeps_expect _) fun close close' w5 hw5 hclose => ?_
      have helem5 := bond.id_later (bond.trans hw3 (bond.trans hw4 hw5)) helem.id
      exact h.build (.array len helem5) (bond.place_to hspan hclose)
    · refine h.bind h.advance fun _ _ w1 _ _ => h.resolve _ fun text => ?_
      split
      · exact h.build (.prim _) hspan
      · exact h.build (.named (bond.name_of_known hknown)) hspan
    · rw [← bind_assoc, ← bind_assoc]
      refine h.bind (h.missing _ hspan) fun sym sym' w1 _ hword => ?_
      cases hword.1
      exact h.build (.named hword.2) hspan

theorem kept_fieldInit (h : bond.Kept P) (hnested : bond.Makes P (.expr n) nested nested') :
    P _ w (bond.Field n) (fieldInit nested) (fieldInit nested') := by
  refine h.bind h.keeps_expectIdent fun name name' w1 _ hname => ?_
  refine h.bind (h.keeps_expect _) fun _ _ w2 hw2 _ => ?_
  refine h.bind (hnested w2) fun value value' w3 hw3 hvalue => h.pure ?_
  exact ⟨Bond.Fact.later (bond.trans hw2 hw3) hname.word, hvalue.id,
    bond.place_to hname.place hvalue.place⟩

theorem kept_structLiteral (h : bond.Kept P) (hnested : bond.Makes P (.expr n) nested nested')
    {name : Symbol} (hname : ∀ w, bond.name w name) {start start' : Span}
    (hstart : bond.place start start') :
    bond.Makes P (.primary n) (structLiteral nested name start)
      (structLiteral nested' name start') := by
  intro w
  refine h.bind (h.keeps_expect _) fun _ _ w1 _ _ => ?_
  refine h.bind (h.commaList _ fun _ => kept_fieldInit h hnested)
    fun fields fields' w2 _ hfields => ?_
  refine h.bind (h.keeps_expect _) fun close close' w3 hw3 hclose => ?_
  have hfields3 := Bond.Fact.later hw3 hfields
  exact h.build (.structLit (hname w3) hfields3) (bond.place_to hstart hclose)

theorem kept_arrayLiteral (h : bond.Kept P) (hnested : bond.Makes P (.expr n) nested nested') :
    bond.Makes P (.primary n) (arrayLiteral nested) (arrayLiteral nested') := by
  intro w
  refine h.bind (h.keeps_expect _) fun start start' w1 _ hstart => ?_
  refine h.bind (h.commaList _ hnested) fun elems elems' w2 _ helems => ?_
  refine h.bind (h.keeps_expect _) fun close close' w3 hw3 hclose => ?_
  have helems3 := Bond.ids_of_each (Bond.Fact.later hw3 helems)
  exact h.build (.arrayLit helems3) (bond.place_to hstart hclose)

theorem kept_primary (h : bond.Kept P) (hnested : bond.Makes P (.expr n) nested nested')
    (inHeader : Bool) :
    bond.Makes P (.primary n) (primary nested inHeader) (primary nested' inHeader) := by
  intro w
  refine h.current fun kind span span' hknown hspan => ?_
  dsimp only
  split
  · next node hnode =>
    exact h.bind h.advance fun _ _ w1 _ _ => h.build (.literal hknown hnode) hspan
  split
  · refine h.bind h.advance fun _ _ w1 _ _ => ?_
    refine h.bind h.isAtStructBody fun opened _ w2 _ hopened => ?_
    cases hopened
    refine kept_ite _ ?_ ?_
    · exact kept_structLiteral h hnested (fun _ => bond.name_of_known hknown) hspan w2
    · exact h.build (.ident (bond.name_of_known hknown)) hspan
  · refine h.bind h.advance fun _ _ w1 _ _ => ?_
    refine h.bind (hnested w1) fun inner inner' w2 _ hinner => ?_
    refine h.bind (h.keeps_expect _) fun _ _ w3 hw3 _ => h.pure ?_
    exact (Bond.Fact.later hw3 hinner).sub (.group n)
  · exact kept_arrayLiteral h hnested w
  · exact h.bind (h.fault _ hspan) fun _ _ w1 _ _ => h.build .zero hspan

theorem kept_applyPrefix (h : bond.Kept P)
    (hoperand : bond.Makes P (.operand n) operand operand') (op : UnaryOp) {start start' : Span}
    (hstart : bond.place start start') :
    bond.Makes P (.operand (n + 1)) (applyPrefix operand op start)
      (applyPrefix operand' op start') := by
  refine fun w => h.bind (hoperand w) fun x x' w1 _ hx => ?_
  exact h.build (.unary op hx.id) (bond.place_to hstart hx.place)

theorem kept_prefixed (h : bond.Kept P) (hoperand : bond.Makes P (.operand n) operand operand')
    (hbare : bond.Makes P (.operand (n + 1)) bare bare') :
    bond.Makes P (.operand (n + 1)) (prefixed operand bare) (prefixed operand' bare') := by
  intro w
  refine h.current fun kind span span' _ hspan => ?_
  dsimp only
  split
  · refine h.bind h.advance fun _ _ w1 _ _ => ?_
    refine h.bind (h.keeps_eat _) fun mutable _ w2 _ hmutable => ?_
    cases hmutable
    exact kept_applyPrefix h hoperand _ hspan w2
  · refine h.bind h.advance fun _ _ w1 _ _ => ?_
    refine h.current fun _ place place' _ hplace => ?_
    have hinner (w : W) : P Built w (bond.Node (.reference n)) (applyPrefix operand .ref place)
        (applyPrefix operand' .ref place') := by
      refine h.bind (hoperand w) fun x x' w1 _ hx => ?_
      exact h.build (.inner hx.id) (bond.place_to hplace hx.place)
    refine h.bind (hinner w1) fun inner inner' w2 _ hb => ?_
    exact h.build (.outer hb.id) (bond.place_to hspan hb.place)
  · split
    · exact h.bind h.advance fun _ _ w1 _ _ => kept_applyPrefix h hoperand _ hspan w1
    · exact hbare w

/-- A call, an element or a field of `base`, if the token opens one. -/
def postfixAt (nested : Parser Built) (base : Built) (t : Token) : Parser Built :=
  match t.kind with
  | .punct .lparen => do
    advance
    let args ← commaList (.punct .rparen) nested
    let close ← expect (.punct .rparen)
    build (.call base.id (args.map (·.id))) (base.span.to close)
  | .punct .lbracket => do
    advance
    let index ← nested
    let close ← expect (.punct .rbracket)
    build (.index base.id index.id) (base.span.to close)
  | .punct .dot => do
    advance
    let (field, close) ← expectIdent
    build (.fieldAccess base.id field) (base.span.to close)
  | _ => return base

theorem postfixStep_eq (nested : Parser Built) (base : Built) :
    postfixStep nested base = current >>= postfixAt nested base :=
  rfl

/-- The token that lets a chain go on is the one that its step looks at. -/
theorem postfixChain_succ (depth : Nat) (base : Built) :
    postfixChain (depth + 1) base = (do
      let t ← current
      if opensPostfix t.kind then
        postfixChain depth (← postfixAt (do infixChain depth false 1 (← unary depth false)) base t)
      else return base) := by
  have hlook {β : Type} (f : Token → Parser β) (c : ParseSettings) (s : ParseState) :
      (current >>= f) c s = f (s.rest.headD ⟨.eof, c.eofSpan⟩) c s :=
    rfl
  funext c s
  rw [postfixChain, hlook, hlook]
  split
  · dsimp only
    rw [postfixStep_eq, bind_assoc, hlook]
  · rfl

theorem kept_postfixAt (h : bond.Kept P) (hnested : bond.Makes P (.expr m) nested nested')
    {base base' : Built} (hbase : bond.Node (.postfixed n (m + 1)) w base base') {kind : TokenKind}
    (hopens : opensPostfix kind = true) (span span' : Span) :
    P Built w (bond.Node (.postfixed n m)) (postfixAt nested base ⟨kind, span⟩)
      (postfixAt nested' base' ⟨kind, span'⟩) := by
  unfold postfixAt
  dsimp only
  split
  · refine h.bind h.advance fun _ _ w1 hw1 _ => ?_
    refine h.bind (h.commaList _ hnested) fun args args' w2 hw2 hargs => ?_
    refine h.bind (h.keeps_expect _) fun close close' w3 hw3 hclose => ?_
    have hbase3 := bond.id_later (bond.trans hw1 (bond.trans hw2 hw3)) hbase.id
    have hargs3 := Bond.ids_of_each (Bond.Fact.later hw3 hargs)
    exact h.build (.call hbase3 hargs3) (bond.place_to hbase.place hclose)
  · refine h.bind h.advance fun _ _ w1 hw1 _ => ?_
    refine h.bind (hnested w1) fun index index' w2 hw2 hindex => ?_
    refine h.bind (h.keeps_expect _) fun close close' w3 hw3 hclose => ?_
    have hbase3 := bond.id_later (bond.trans hw1 (bond.trans hw2 hw3)) hbase.id
    exact h.build (.index hbase3 (bond.id_later hw3 hindex.id)) (bond.place_to hbase.place hclose)
  · refine h.bind h.advance fun _ _ w1 hw1 _ => ?_
    refine h.bind h.keeps_expectIdent fun field field' w2 hw2 hfield => ?_
    have hbase2 := bond.id_later (bond.trans hw1 hw2) hbase.id
    rw [← hfield.word.1]
    exact h.build (.fieldAccess hbase2 hfield.word.2) (bond.place_to hbase.place hfield.place)
  · simp [opensPostfix] at hopens

end

section

variable {W : Type} {bond : Bond W}
  {P : (α : Type) → W → (W → α → α → Prop) → Parser α → Parser α → Prop} {m : Nat}

structure KeptAt (bond : Bond W)
    (P : (α : Type) → W → (W → α → α → Prop) → Parser α → Parser α → Prop) (m m' : Nat) :
    Prop where
  operand (inHeader : Bool) : bond.Makes P (.operand m) (unary m inHeader) (unary m' inHeader)
  postfixes {w : W} {n : Nat} {base base' : Built} : bond.Node (.postfixed n m) w base base' →
    P Built w (bond.Node (.operand (n + 1))) (postfixChain m base) (postfixChain m' base')
  infixes {w : W} {n : Nat} {lhs lhs' : Built} (inHeader : Bool) (least : Nat) :
    bond.Node (.linked n m) w lhs lhs' →
      P Built w (bond.Node (.expr n)) (infixChain m inHeader least lhs)
        (infixChain m' inHeader least lhs')

theorem KeptAt.nested {m' : Nat} (h : bond.Kept P) (hm : KeptAt bond P m m') (inHeader : Bool)
    (least : Nat) :
    bond.Makes P (.expr m) (do infixChain m inHeader least (← unary m inHeader))
      (do infixChain m' inHeader least (← unary m' inHeader)) :=
  fun w => h.bind (hm.operand inHeader w) fun _ _ _ _ hlhs =>
    hm.infixes inHeader least (hlhs.sub (.first m))

/-- At the end of the nesting only the second reader may have levels left. -/
theorem keptAt_zero (h : bond.Kept P) {m' : Nat} (hm : bond.level 0 m') : KeptAt bond P 0 m' where
  operand inHeader w := by
    refine h.tooDeep fun heven => ?_
    rw [bond.level_zero hm heven, unary]
  postfixes {w n base base'} hbase := by
    have hdone := hbase.sub (.bare n 0)
    cases m' with
    | zero =>
      unfold postfixChain
      refine h.current fun _ _ _ _ _ => ?_
      exact kept_ite _ (h.tooDeep fun _ => rfl) (h.pure hdone)
    | succ m' =>
      unfold postfixChain
      refine h.current fun _ _ _ _ _ => kept_ite _ (h.tooDeep fun heven => ?_) (h.pure hdone)
      cases bond.level_zero hm heven
  infixes {w n lhs lhs'} inHeader least hlhs := by
    have hdone := hlhs.sub (.whole n 0)
    cases m' with
    | zero =>
      unfold infixChain
      refine h.current fun _ _ _ _ _ => ?_
      dsimp only
      split
      · exact kept_ite _ (h.pure hdone) (h.tooDeep fun _ => rfl)
      · exact h.pure hdone
    | succ m' =>
      unfold infixChain
      refine h.current fun _ _ _ _ _ => ?_
      dsimp only
      split
      · refine kept_ite _ (h.pure hdone) (h.tooDeep fun heven => ?_)
        cases bond.level_zero hm heven
      · exact h.pure hdone

/-- With one more level, from the readers one level further down. -/
theorem keptAt_succ (h : bond.Kept P) {m' : Nat} (hm : KeptAt bond P m m') :
    KeptAt bond P (m + 1) (m' + 1) where
  operand inHeader := by
    unfold unary
    refine kept_prefixed h (hm.operand inHeader) fun w => ?_
    refine h.bind (kept_primary h (hm.nested h false 1) inHeader w) fun base base' w1 _ hbase => ?_
    exact hm.postfixes (hbase.sub (.base m))
  postfixes {w n base base'} hbase := by
    rw [postfixChain_succ, postfixChain_succ]
    refine h.current fun kind span span' _ _ => ?_
    dsimp only
    split
    · next hopens =>
      refine h.bind (kept_postfixAt h (hm.nested h false 1) hbase hopens span span')
        fun whole whole' w1 _ hwhole => ?_
      exact hm.postfixes hwhole
    · exact h.pure (hbase.sub (.bare n _))
  infixes {w n lhs lhs'} inHeader least hlhs := by
    have hdone := hlhs.sub (.whole n _)
    unfold infixChain
    refine h.current fun kind span span' _ _ => ?_
    dsimp only
    split
    · next precedence op _ =>
      refine kept_ite _ (h.pure hdone) (h.bind h.advance fun _ _ w1 hw1 _ => ?_)
      refine h.bind (hm.operand inHeader w1) fun first first' w2 hw2 hfirst => ?_
      refine h.bind (hm.infixes inHeader _ (hfirst.sub (.first m))) fun rhs rhs' w3 hw3 hrhs => ?_
      have hlhs3 := bond.id_later (bond.trans hw1 (bond.trans hw2 hw3)) hlhs.id
      refine h.bind (h.build (.link op hlhs3 hrhs.id) (bond.place_to hlhs.place hrhs.place))
        fun whole whole' w4 _ hwhole => ?_
      exact hm.infixes inHeader least hwhole
    · exact h.pure hdone

theorem keptAt (h : bond.Kept P) {m m' : Nat} (hm : bond.level m m') : KeptAt bond P m m' := by
  induction m generalizing m' with
  | zero => exact keptAt_zero h hm
  | succ m ih =>
    obtain ⟨d, rfl, hd⟩ := bond.level_succ hm
    exact keptAt_succ h (ih hd)

theorem kept_expr (h : bond.Kept P) {m m' : Nat} (hm : bond.level m m') (inHeader : Bool) :
    bond.Makes P (.expr m) (expr m inHeader) (expr m' inHeader) :=
  (keptAt h hm).nested h inHeader 1

end

/-! ### Statements -/

section

variable {W : Type} {bond : Bond W}
  {P : (α : Type) → W → (W → α → α → Prop) → Parser α → Parser α → Prop} {n n' : Nat}
  {block block' conditional conditional' stmt stmt' : Parser Built}

theorem kept_letStmt (h : bond.Kept P) (hn : bond.level n n') :
    bond.Makes P (.stmt n) (letStmt n) (letStmt n') := by
  intro w
  refine h.bind (h.keeps_expect _) fun start start' w1 _ hstart => ?_
  refine h.bind (h.keeps_eat _) fun mutable _ w2 _ hmutable => ?_
  cases hmutable
  refine h.bind h.keeps_expectIdent fun name name' w3 _ hname => ?_
  refine h.bind (h.keeps_after _ (kept_type h hn)) fun ty ty' w4 hw4 hty => ?_
  refine h.bind (h.keeps_after _ (kept_expr h hn false)) fun init init' w5 hw5 hinit => ?_
  refine h.bind (h.keeps_expect _) fun close close' w6 hw6 hclose => ?_
  have hname6 := bond.name_later (bond.trans hw4 (bond.trans hw5 hw6)) hname.word.2
  have hty6 := Bond.id_of_maybe (Bond.Fact.later (bond.trans hw5 hw6) hty)
  have hinit6 := Bond.id_of_maybe (Bond.Fact.later hw6 hinit)
  rw [← hname.word.1]
  exact h.build (.letStmt mutable hname6 hty6 hinit6) (bond.place_to hstart hclose)

theorem kept_returnStmt (h : bond.Kept P) (hn : bond.level n n') {start start' : Span}
    (hstart : bond.place start start') :
    bond.Makes P (.stmt n) (returnStmt n start) (returnStmt n' start') := by
  have hclose (w : W) {value value' : Option Built}
      (hvalue : Maybe (bond.Node (.expr n)) w value value') :
      P Built w (bond.Node (.stmt n))
        (do
          let close ← expect (.punct .semicolon)
          build (.returnStmt (value.map (·.id))) (start.to close))
        (do
          let close ← expect (.punct .semicolon)
          build (.returnStmt (value'.map (·.id))) (start'.to close)) := by
    refine h.bind (h.keeps_expect _) fun close close' w1 hw1 hclose => ?_
    have hvalue1 := Bond.id_of_maybe (Bond.Fact.later hw1 hvalue)
    exact h.build (.returnStmt hvalue1) (bond.place_to hstart hclose)
  intro w
  refine h.bind h.advance fun _ _ w1 _ _ => ?_
  refine h.keeps_isAt _ fun atSemicolon => h.keeps_isAt _ fun atBrace => kept_ite _ ?_ ?_
  · rw [pure_bind, pure_bind]
    exact hclose w1 .none
  · rw [bind_map_left, bind_map_left]
    exact h.bind (kept_expr h hn false w1) fun _ _ w2 _ hvalue => hclose w2 (.some hvalue)

theorem kept_jump (h : bond.Kept P) {w : W} {kind : NodeKind Symbol NodeId} {start start' : Span}
    (hkind : ∀ w, bond.Forms w (.stmt n) kind kind) (hstart : bond.place start start') :
    P Built w (bond.Node (.stmt n)) (jump kind start) (jump kind start') := by
  refine h.bind h.advance fun _ _ w1 _ _ => ?_
  refine h.bind (h.keeps_expect _) fun close close' w2 _ hclose => ?_
  exact h.build (hkind w2) (bond.place_to hstart hclose)

/-- What follows depends on whether the expression is a place. -/
theorem kept_exprOrAssign (h : bond.Kept P) (hn : bond.level n n') :
    bond.Makes P (.stmt n) (exprOrAssign n) (exprOrAssign n') := by
  intro w
  refine h.bind (kept_expr h hn false w) fun lhs lhs' w1 _ hlhs => ?_
  refine h.current fun kind span span' _ _ => ?_
  dsimp only
  split
  · next op _ =>
    have hvalue (w2 : W) (hw2 : bond.le w1 w2) : P Built w2 (bond.Node (.stmt n))
        (do
          advance
          let value ← expr n false
          let close ← expect (.punct .semicolon)
          build (.assign lhs.id op value.id) (lhs.span.to close))
        (do
          advance
          let value ← expr n' false
          let close ← expect (.punct .semicolon)
          build (.assign lhs'.id op value.id) (lhs'.span.to close)) := by
      refine h.bind h.advance fun _ _ w3 hw3 _ => ?_
      refine h.bind (kept_expr h hn false w3) fun value value' w4 hw4 hvalue => ?_
      refine h.bind (h.keeps_expect _) fun close close' w5 hw5 hclose => ?_
      have hlhs4 := bond.id_later (bond.trans hw2 (bond.trans hw3 hw4)) hlhs.id
      have hform := Bond.Forms.assign op (bond.id_later hw5 hlhs4) (bond.id_later hw5 hvalue.id)
      exact h.build hform (bond.place_to hlhs.place hclose)
    rw [hlhs.isPlace]
    refine kept_ite _ ?_ (hvalue w1 (bond.refl w1))
    exact h.bind (h.fault _ hlhs.place) fun _ _ w2 hw2 _ => hvalue w2 hw2
  · refine h.bind (h.keeps_expect _) fun close close' w2 hw2 hclose => ?_
    exact h.build (.exprStmt (bond.id_later hw2 hlhs.id)) (bond.place_to hlhs.place hclose)

theorem kept_stmt (h : bond.Kept P) (hn : bond.level n n')
    (hblock : bond.Makes P (.block n) block block')
    (hconditional : bond.Makes P (.conditional n) conditional conditional') :
    bond.Makes P (.stmt n) (Parser.stmt n block conditional)
      (Parser.stmt n' block' conditional') := by
  intro w
  refine h.current fun kind span span' _ hspan => ?_
  dsimp only
  split
  · exact kept_letStmt h hn w
  · exact kept_returnStmt h hn hspan w
  · exact h.sub (hconditional w) (.conditionalStmt n)
  · refine h.bind h.advance fun _ _ w1 _ _ => ?_
    refine h.bind (kept_expr h hn true w1) fun cond cond' w2 _ hcond => ?_
    refine h.bind (hblock w2) fun body body' w3 hw3 hbody => ?_
    exact h.build (.whileStmt (bond.id_later hw3 hcond.id) hbody.id)
      (bond.place_to hspan hbody.place)
  · refine h.bind h.advance fun _ _ w1 _ _ => ?_
    refine h.bind h.keeps_expectIdent fun var var' w2 _ hvar => ?_
    refine h.bind (h.keeps_expect _) fun _ _ w3 hw3 _ => ?_
    refine h.bind (kept_expr h hn true w3) fun iter iter' w4 hw4 hiter => ?_
    refine h.bind (hblock w4) fun body body' w5 hw5 hbody => ?_
    have hvar5 := bond.name_later (bond.trans hw3 (bond.trans hw4 hw5)) hvar.word.2
    rw [← hvar.word.1]
    exact h.build (.forStmt hvar5 (bond.id_later hw5 hiter.id) hbody.id)
      (bond.place_to hspan hbody.place)
  · exact kept_jump h (fun _ => .breakStmt) hspan
  · exact kept_jump h (fun _ => .continueStmt) hspan
  · exact h.sub (hblock w) (.blockStmt n)
  · exact kept_exprOrAssign h hn w

theorem kept_braced (h : bond.Kept P) (hstmt : bond.Makes P (.stmt n) stmt stmt') :
    bond.Makes P (.block (n + 1)) (braced stmt) (braced stmt') := by
  intro w
  unfold braced
  refine h.bind (h.keeps_expect _) fun start start' w1 _ hstart => ?_
  rw [← bind_assoc, ← bind_assoc]
  refine h.bind (h.stmts hstmt) fun stmts stmts' w2 _ hstmts => ?_
  refine h.bind (h.keeps_expect _) fun close close' w3 hw3 hclose => ?_
  have hstmts3 := Bond.Fact.later hw3 hstmts
  exact h.build (.block hstmts3) (bond.place_to hstart hclose)

theorem kept_ifElse (h : bond.Kept P) (hn : bond.level n n')
    (hblock : bond.Makes P (.block n) block block')
    (hconditional : bond.Makes P (.conditional n) conditional conditional') :
    bond.Makes P (.conditional (n + 1)) (ifElse n block conditional)
      (ifElse n' block' conditional') := by
  have helse : bond.Makes P (.branch n)
      (do if ← isAt (.keyword .ifKw) then conditional else block)
      (do if ← isAt (.keyword .ifKw) then conditional' else block') := by
    refine fun w => h.keeps_isAt _ fun again => kept_ite _ ?_ ?_
    · exact h.sub (hconditional w) (.conditionalBranch n)
    · exact h.sub (hblock w) (.blockBranch n)
  intro w
  refine h.bind (h.keeps_expect _) fun start start' w1 _ hstart => ?_
  refine h.bind (kept_expr h hn true w1) fun cond cond' w2 _ hcond => ?_
  refine h.bind (hblock w2) fun yes yes' w3 hw3 hyes => ?_
  refine h.bind (h.keeps_after _ helse) fun no no' w4 hw4 hno => ?_
  have hlast : bond.place (no.getD yes).span (no'.getD yes').span := by
    cases hno with
    | none => exact hyes.place
    | some hb => exact hb.place
  have hcond4 := bond.id_later (bond.trans hw3 hw4) hcond.id
  have hform := Bond.Forms.ifStmt hcond4 (bond.id_later hw4 hyes.id) (Bond.id_of_maybe hno)
  exact h.build hform (bond.place_to hstart hlast)

/-- Blocks and conditionals hold each other, so they are treated together. -/
theorem kept_block_and_conditional (h : bond.Kept P) (hn : bond.level n n') :
    bond.Makes P (.block n) (Parser.block n) (Parser.block n') ∧
      bond.Makes P (.conditional n) (Parser.conditional n) (Parser.conditional n') := by
  induction n generalizing n' with
  | zero =>
    constructor
    · refine fun w => h.tooDeep fun heven => ?_
      rw [bond.level_zero hn heven, Parser.block]
    · refine fun w => h.tooDeep fun heven => ?_
      rw [bond.level_zero hn heven, Parser.conditional]
  | succ n ih =>
    obtain ⟨d, rfl, hd⟩ := bond.level_succ hn
    obtain ⟨hblock, hconditional⟩ := ih hd
    constructor
    · exact kept_braced h (kept_stmt h hd hblock hconditional)
    · exact kept_ifElse h hd hblock hconditional

end

/-! ### Items and programs -/

section

variable {W : Type} {bond : Bond W}
  {P : (α : Type) → W → (W → α → α → Prop) → Parser α → Parser α → Prop} {n n' : Nat}

theorem kept_param (h : bond.Kept P) (hn : bond.level n n') :
    bond.Makes P (.param n) (param n) (param n') := by
  intro w
  refine h.current fun kind span span' _ hspan => ?_
  refine h.bind (h.keeps_eat _) fun mutable _ w1 _ hmutable => ?_
  cases hmutable
  refine h.bind h.keeps_expectIdent fun name name' w2 _ hname => ?_
  refine h.bind (h.keeps_expect _) fun _ _ w3 hw3 _ => ?_
  refine h.bind (kept_type h hn w3) fun ty ty' w4 hw4 hty => ?_
  have hname4 := bond.name_later (bond.trans hw3 hw4) hname.word.2
  rw [← hname.word.1]
  exact h.build (.param mutable hname4 hty.id) (bond.place_to hspan hty.place)

theorem kept_structField (h : bond.Kept P) (hn : bond.level n n') :
    bond.Makes P (.field n) (structField n) (structField n') := by
  intro w
  refine h.current fun kind span span' _ hspan => ?_
  refine h.bind h.keeps_expectIdent fun name name' w1 _ hname => ?_
  refine h.bind (h.keeps_expect _) fun _ _ w2 hw2 _ => ?_
  refine h.bind (kept_type h hn w2) fun ty ty' w3 hw3 hty => ?_
  have hname3 := bond.name_later (bond.trans hw2 hw3) hname.word.2
  rw [← hname.word.1]
  exact h.build (.field hname3 hty.id) (bond.place_to hspan hty.place)

theorem kept_function (h : bond.Kept P) (hn : bond.level n n') (isPublic : Bool)
    {start start' : Span} (hstart : bond.place start start') :
    bond.Makes P (.item n) (function n isPublic start) (function n' isPublic start') := by
  intro w
  refine h.bind (h.keeps_expect _) fun _ _ w1 _ _ => ?_
  refine h.bind h.keeps_expectIdent fun name name' w2 _ hname => ?_
  refine h.bind (h.keeps_expect _) fun _ _ w3 hw3 _ => ?_
  refine h.bind (h.commaList _ (kept_param h hn)) fun params params' w4 hw4 hparams => ?_
  refine h.bind (h.keeps_expect _) fun _ _ w5 hw5 _ => ?_
  refine h.bind (h.keeps_after _ (kept_type h hn)) fun ret ret' w6 hw6 hret => ?_
  refine h.bind ((kept_block_and_conditional h hn).1 w6) fun body body' w7 hw7 hbody => ?_
  have hw57 := bond.trans hw5 (bond.trans hw6 hw7)
  have hname7 := bond.name_later (bond.trans hw3 (bond.trans hw4 hw57)) hname.word.2
  have hparams7 := Bond.ids_of_each (Bond.Fact.later hw57 hparams)
  have hret7 := Bond.id_of_maybe (Bond.Fact.later hw7 hret)
  rw [← hname.word.1]
  exact h.build (.function isPublic hname7 hparams7 hret7 hbody.id)
    (bond.place_to hstart hbody.place)

theorem kept_struct (h : bond.Kept P) (hn : bond.level n n') {start start' : Span}
    (hstart : bond.place start start') :
    bond.Makes P (.item n) (struct n start) (struct n' start') := by
  intro w
  refine h.bind (h.keeps_expect _) fun _ _ w1 _ _ => ?_
  refine h.bind h.keeps_expectIdent fun name name' w2 _ hname => ?_
  refine h.bind (h.keeps_expect _) fun _ _ w3 hw3 _ => ?_
  refine h.bind (h.commaList _ (kept_structField h hn)) fun fields fields' w4 hw4 hfields => ?_
  refine h.bind (h.keeps_expect _) fun close close' w5 hw5 hclose => ?_
  have hname5 := bond.name_later (bond.trans hw3 (bond.trans hw4 hw5)) hname.word.2
  have hfields5 := Bond.ids_of_each (Bond.Fact.later hw5 hfields)
  rw [← hname.word.1]
  exact h.build (.struct hname5 hfields5) (bond.place_to hstart hclose)

theorem kept_item (h : bond.Kept P) (hn : bond.level n n') :
    bond.Makes P (.item n) (item n) (item n') := by
  intro w
  refine h.current fun kind span span' _ hspan => ?_
  refine h.bind (h.keeps_eat _) fun isPublic _ w1 _ hpublic => ?_
  cases hpublic
  refine h.keeps_isAt _ fun atStruct => kept_ite _ ?_ ?_
  · exact kept_struct h hn hspan w1
  · exact kept_function h hn isPublic hspan w1

theorem kept_eatSeparator (h : bond.Stepwise P) {w : W} :
    P Bool w Same eatSeparator eatSeparator := by
  refine h.bind (h.keeps_eat _) fun found _ w1 _ hfound => ?_
  cases hfound
  exact kept_ite _ (h.pure rfl) (h.keeps_eat _)

theorem kept_pathTail (h : bond.Stepwise P) {w : W} (fuel : Nat) {path path' : Array Symbol}
    {last last' : Span} (hpath : Each bond.Word w path.toList path'.toList)
    (hlast : bond.place last last') :
    P _ w bond.Path (pathTail fuel path last) (pathTail fuel path' last') := by
  induction fuel generalizing w path path' last last' with
  | zero => exact h.pure ⟨hpath, hlast⟩
  | succ fuel ih =>
    unfold pathTail
    refine h.bind (kept_eatSeparator h) fun found _ w1 hw1 hfound => ?_
    cases hfound
    have hpath1 := Bond.Fact.later hw1 hpath
    refine kept_ite _ ?_ (h.pure ⟨hpath1, hlast⟩)
    refine h.bind h.keeps_expectIdent fun name name' w2 hw2 hname => ?_
    have hpath2 := Bond.Fact.later hw2 hpath1
    exact ih (hpath2.push hname.word) hname.place

theorem kept_importPath (h : bond.Stepwise P) : bond.Makes P (.item n) importPath importPath := by
  intro w
  refine h.current fun kind span span' _ hspan => ?_
  refine h.bind h.advance fun _ _ w1 _ _ => ?_
  refine h.bind h.keeps_expectIdent fun first first' w2 _ hfirst => h.rounds fun fuel => ?_
  refine h.bind (kept_pathTail h fuel (.cons hfirst.word .nil) hfirst.place)
    fun path path' w3 _ hpath => ?_
  refine h.current fun _ close close' _ hclose => ?_
  refine h.bind (h.keeps_eat _) fun found _ w4 hw4 hfound => ?_
  cases hfound
  obtain ⟨heq, hwords⟩ := Bond.words_of_each (Bond.Fact.later hw4 hpath.words)
  rw [← heq]
  have hlast (place place' : Span) (hplace : bond.place place place') :
      P Built w4 (bond.Node (.item n)) (build (.importPath path.1) (span.to place))
        (build (.importPath path.1) (span'.to place')) :=
    h.build (.importPath hwords) (bond.place_to hspan hplace)
  refine kept_ite _ ?_ ?_
  · exact hlast _ _ hclose
  · exact hlast _ _ hpath.place

/-- The loop over items of a program, by induction on its rounds. -/
theorem kept_itemsToEnd (h : bond.Stepwise P) (hn : bond.level n n') {w : W} (fuel : Nat)
    {done done' : Array NodeId} (hdone : Each (bond.Id (.item n)) w done.toList done'.toList) :
    P _ w (Each (bond.Id (.item n))) (itemsToEnd n fuel done) (itemsToEnd n' fuel done') := by
  induction fuel generalizing w done done' with
  | zero => exact h.pure hdone
  | succ fuel ih =>
    have hpush {w1 : W} (hw1 : bond.le w w1) {b b' : Built} (hb : bond.Node (.item n) w1 b b') :
        P _ w1 (Each (bond.Id (.item n))) (itemsToEnd n fuel (done.push b.id))
          (itemsToEnd n' fuel (done'.push b'.id)) := by
      have hdone1 := Bond.Fact.later hw1 hdone
      exact ih (hdone1.push hb.id)
    unfold itemsToEnd
    refine h.current fun kind span span' _ hspan => ?_
    dsimp only
    split
    · exact h.pure hdone
    · exact h.bind (kept_item h.kept hn w) fun _ _ _ hw1 hb => hpush hw1 hb
    · exact h.bind (kept_item h.kept hn w) fun _ _ _ hw1 hb => hpush hw1 hb
    · exact h.bind (kept_item h.kept hn w) fun _ _ _ hw1 hb => hpush hw1 hb
    · exact h.bind (kept_importPath h w) fun _ _ _ hw1 hb => hpush hw1 hb
    · exact h.bind (kept_importPath h w) fun _ _ _ hw1 hb => hpush hw1 hb
    · refine h.bind (h.fault _ hspan) fun _ _ w1 hw1 _ => ?_
      rw [skipToItem, bind_assoc, bind_assoc]
      refine h.bind h.advance fun _ _ w2 hw2 _ => ?_
      refine h.bind (h.advanceWhile _) fun _ _ w3 hw3 _ => ?_
      exact ih (Bond.Fact.later (bond.trans hw1 (bond.trans hw2 hw3)) hdone)

/-- A whole unit is related as soon as the single steps are. -/
theorem kept_program (h : bond.Stepwise P) : bond.Makes P .program program program := by
  intro w
  refine h.current fun kind span span' _ hspan => ?_
  have hread (n n' : Nat) (hn : bond.level n n') (htop : bond.top n) :
      P Built w (bond.Node .program)
        (do
          let items ← itemsToEnd n (← rounds) #[]
          build (.program items) (span.to (← current).span))
        (do
          let items ← itemsToEnd n' (← rounds) #[]
          build (.program items) (span'.to (← current).span)) := by
    refine h.rounds fun fuel => ?_
    refine h.bind (kept_itemsToEnd h hn fuel .nil) fun items items' w1 _ hitems => ?_
    refine h.current fun _ close close' _ hclose => ?_
    exact h.build (.program htop hitems) (bond.place_to hspan hclose)
  exact h.withMaxDepth hread

end

/-! ### Properties of single readers -/

/-- A property that holds of the steps and is kept by sequencing, whatever the
results are. -/
structure StepClosed (P : (α : Type) → Parser α → Prop) : Prop where
  pure {α : Type} (a : α) : P α (pure a)
  bind {α β : Type} {p : Parser α} {f : α → Parser β} :
    P α p → (∀ a, P β (f a)) → P β (p >>= f)
  current : P Token current
  peek (n : Nat) : P Token (peek n)
  advance : P Unit advance
  advanceWhile (skip : TokenKind → Bool) : P Unit (advanceWhile skip)
  fault (f : ParseFault) (span : Span) : P Unit (fault f span)
  intern (text : String) : P Symbol (intern text)
  resolve (sym : Symbol) : P String (resolve sym)
  build (kind : NodeKind Symbol NodeId) (span : Span) : P Built (build kind span)
  consumed : P Nat consumed
  rounds : P Nat rounds
  tooDeep {α : Type} : P α tooDeep
  withMaxDepth {α : Type} {f : Nat → Parser α} :
    (∀ depth, P α (f depth)) → P α (do f (← read).maxDepth)

/-- The bond that asks nothing of a run beside itself. -/
def Bond.loose : Bond Unit where
  le _ _ := True
  refl _ := True.intro
  trans _ _ := True.intro
  place _ _ := True
  place_to _ _ := True.intro
  known _ := True
  name _ _ := True
  name_of_known _ := True.intro
  name_later _ _ := True.intro
  id _ _ _ _ := True
  id_later _ _ := True.intro
  id_sub _ _ := True.intro
  level := Eq
  even := True
  level_zero := Bond.level_zero_of_eq
  level_succ := Bond.level_succ_of_eq
  top _ := True
  free := True
  place_self _ _ := True.intro
  name_self _ _ _ := True.intro
  id_self _ _ _ _ := True.intro

def Alone (P : (α : Type) → Parser α → Prop) (α : Type) (_ : Unit) (_ : Unit → α → α → Prop)
    (p _ : Parser α) : Prop :=
  P α p

section

variable {P : (α : Type) → Parser α → Prop} {α : Type} {R : Unit → α → α → Prop} {p : Parser α}
  {nested operand block conditional : Parser Built}

theorem Alone.single (h : Alone P α () R p p) : P α p :=
  h

/-- Every fact holds of a result beside itself. -/
theorem alone_self [h : Bond.loose.Fact R] (a : α) : R () a a :=
  h.self True.intro () a

/-- A property of single runs is a relation between a run and itself. -/
theorem StepClosed.stepwise (h : StepClosed P) : Bond.loose.Stepwise (Alone P) where
  pure _ := h.pure _
  bind hp hf := h.bind hp fun a => hf a a () True.intro (alone_self a)
  current hf := h.bind h.current fun t => hf t.kind t.span t.span True.intro True.intro
  peek n hf := h.bind (h.peek n) fun t => hf t.kind t.span t.span
  resolve sym hf := h.bind (h.resolve sym) hf
  consumed hf := h.bind h.consumed hf
  rounds hf := h.bind h.rounds hf
  advance := h.advance
  advanceWhile skip := h.advanceWhile skip
  fault f _ _ _ := h.fault f _
  missing f _ _ _ := h.bind (h.fault f _) fun _ => h.intern _
  build _ _ := h.build _ _
  tooDeep _ := h.tooDeep
  withMaxDepth hf := h.withMaxDepth fun depth => hf depth depth rfl True.intro

theorem closed_ite (q : Prop) [Decidable q] {p' : Parser α} (hp : P α p) (hp' : P α p') :
    P α (if q then p else p') := by
  split
  · exact hp
  · exact hp'

theorem closed_isAt (h : StepClosed P) (k : TokenKind) : P Bool (isAt k) :=
  h.bind h.current fun _ => h.pure _

theorem closed_eat (h : StepClosed P) (k : TokenKind) : P Bool (eat k) :=
  (h.stepwise.keeps_eat k).single

theorem closed_expect (h : StepClosed P) (k : TokenKind) : P Span (expect k) :=
  (h.stepwise.keeps_expect k).single

theorem closed_expectIdent (h : StepClosed P) : P (Symbol × Span) expectIdent :=
  h.stepwise.keeps_expectIdent.single

theorem closed_commaList (h : StepClosed P) (close : TokenKind) (hp : P α p) :
    P (List α) (commaList close p) :=
  Alone.single (h.stepwise.kept.commaList (R := Same) close fun _ => hp)

theorem closed_after (h : StepClosed P) (k : TokenKind) (hp : P α p) :
    P (Option α) (after k p) :=
  Alone.single (h.stepwise.keeps_after (R := Same) k fun _ => hp)

theorem closed_type (h : StepClosed P) (depth : Nat) : P Built (type depth) :=
  Alone.single (kept_type h.stepwise.kept rfl ())

theorem closed_isAtStructBody (h : StepClosed P) : P Bool isAtStructBody :=
  h.stepwise.kept.isAtStructBody.single

theorem closed_structLiteral (h : StepClosed P) (hnested : P Built nested) (name : Symbol)
    (start : Span) : P Built (structLiteral nested name start) :=
  Alone.single (kept_structLiteral h.stepwise.kept (n := 0) (fun _ => hnested) (fun _ => True.intro)
    True.intro ())

theorem closed_applyPrefix (h : StepClosed P) (hoperand : P Built operand) (op : UnaryOp)
    (start : Span) : P Built (applyPrefix operand op start) :=
  Alone.single (kept_applyPrefix h.stepwise.kept (n := 0) (fun _ => hoperand) op True.intro ())

theorem closed_unary (h : StepClosed P) (depth : Nat) (inHeader : Bool) :
    P Built (unary depth inHeader) :=
  Alone.single ((keptAt h.stepwise.kept rfl).operand inHeader ())

theorem closed_postfixChain (h : StepClosed P) (depth : Nat) (base : Built) :
    P Built (postfixChain depth base) :=
  Alone.single ((keptAt h.stepwise.kept rfl).postfixes (n := 0) (alone_self base))

theorem closed_infixChain (h : StepClosed P) (depth : Nat) (inHeader : Bool) (least : Nat)
    (lhs : Built) : P Built (infixChain depth inHeader least lhs) :=
  Alone.single ((keptAt h.stepwise.kept rfl).infixes (n := 0) inHeader least (alone_self lhs))

theorem closed_expr (h : StepClosed P) (depth : Nat) (inHeader : Bool) :
    P Built (expr depth inHeader) :=
  Alone.single (kept_expr h.stepwise.kept rfl inHeader ())

theorem closed_stmt (h : StepClosed P) (depth : Nat) (hblock : P Built block)
    (hconditional : P Built conditional) : P Built (stmt depth block conditional) :=
  Alone.single (kept_stmt h.stepwise.kept rfl (fun _ => hblock) (fun _ => hconditional) ())

theorem closed_stmtsUntil (h : StepClosed P) {stmt : Parser Built} (hstmt : P Built stmt)
    (fuel : Nat) (done : Array NodeId) : P (List NodeId) (stmtsUntil stmt fuel done) :=
  Alone.single (kept_stmtsUntil h.stepwise (n := 0) (fun _ => hstmt) fuel (alone_self done.toList))

theorem closed_block_and_conditional (h : StepClosed P) (depth : Nat) :
    P Built (Parser.block depth) ∧ P Built (Parser.conditional depth) :=
  (kept_block_and_conditional h.stepwise.kept rfl).imp (fun hb => Alone.single (hb ()))
    fun hc => Alone.single (hc ())

theorem closed_program (h : StepClosed P) : P Built program :=
  Alone.single (kept_program h.stepwise ())

end

end StagedCompiler.Parser
