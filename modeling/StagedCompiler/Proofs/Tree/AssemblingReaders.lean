import StagedCompiler.Proofs.Tree.NodeRows

/-!
Every reader puts what it takes and makes in a row, whatever is said of rows:
types, expressions, statements and items, up to the program that holds them all.
Which sort a node is of is a fact about the node alone. For the nodes that no
other node holds this gives the history of a unit.
-/

namespace StagedCompiler

theorem PrimType.name_of_ofName? {name : String} {type : PrimType}
    (h : PrimType.ofName? name = some type) : type.name = name := by
  unfold ofName? at h
  simpa using List.find?_some h

/-! ### Operators bear no value -/

theorem TokenKind.bearing_infixOp {kind : TokenKind} {op : Nat × InfixOp}
    (h : kind.infixOp? = some op) : kind.bearing = [] := by
  cases kind with
  | punct _ => rfl
  | _ => cases h

theorem TokenKind.bearing_assignOp {kind : TokenKind} {op : AssignOp}
    (h : kind.assignOp? = some op) : kind.bearing = [] := by
  cases kind with
  | punct _ => rfl
  | _ => cases h

namespace Parser

open NodeKind
open Ingredient (nodes)

theorem bearing_prefixOp {kind : TokenKind} {op : UnaryOp} (h : prefixOp? kind = some op) :
    kind.bearing = [] := by
  cases kind with
  | punct _ => rfl
  | _ => cases h

/-! ### Types -/

section

variable {c : ParseSettings} {tokens : List Token} {r : Rows c tokens} {s s' : ParseState}
  {xs : List Ingredient} {P : NodeKind Symbol NodeId → Bool} {nested operand bare : Parser Built}

theorem front_mem (h : r.Row s xs s') (hk : (front c s').kind ≠ .eof) : front c s' ∈ tokens := by
  apply r.rest h
  rw [rest_eq_front hk]
  exact List.mem_cons_self

/-- The length that is kept is that of the token, or the zero for a missing one. -/
theorem arrayLength_post (h : r.Row s xs s') :
    arrayLength.Post c s'
      (fun (len : Nat) s'' => r.Row s (xs ++ [.word (.int len)]) s'' ∧ FromTokens tokens len)
      fun _ => True := by
  have hmissing : (do
      fault (.expected "array length" (front c s').kind) (front c s').span
      return 0 : Parser Nat).Post c s'
        (fun len s'' => r.Row s (xs ++ [.word (.int len)]) s'' ∧ FromTokens tokens len)
        fun _ => True := by
    rw [post_bind, post_fault]
    refine ⟨fun _ => trivial, fun hmode => ⟨?_, .inl rfl⟩⟩
    exact r.row (r.leave [.int 0] h hmode (.report s' _) rfl)
  unfold arrayLength
  rw [post_bind, post_current]
  dsimp only
  split
  · next n hn =>
    split
    · next hpos =>
      have htaken := Rows.taken h hn
      rw [← Int.toNat_of_nonneg hpos] at hn htaken
      rw [post_bind, post_advance]
      exact ⟨r.row htaken, .inr ⟨front c s', front_mem h (by simp [hn]), hn⟩⟩
    · exact hmissing
  · exact hmissing

/-- Types, by induction on the levels that are left. -/
theorem type_reads (depth : Nat) : r.Reads isType (type depth) := by
  induction depth with
  | zero => exact fun _ _ => trivial
  | succ depth ih =>
    intro s h
    unfold type
    rw [post_bind, post_current]
    split
    · next hk =>
      apply advance_row h (by rw [hk]; rfl)
      intro s1 h1
      apply (passes_eat rfl).then h1
      intro mutable s2 h2
      apply ih.then h2
      intro inner s3 h3 hinner
      apply build_first (r.last h3) _ rfl
      exact ⟨rfl, ⟨inner, by simp, rfl, hinner⟩, trivial, fun _ => trivial, trivial⟩
    · next hk =>
      apply advance_row h (by rw [hk]; rfl)
      intro s1 h1
      apply ih.then h1
      intro elem s2 h2 helem
      apply (passes_expect rfl).then h2
      intro _ s3 h3
      rw [post_bind]
      apply (arrayLength_post h3).imp
      rintro len s4 ⟨h4, hlen⟩
      apply expect_closes rfl h4
      intro close s5 h5
      apply build_first h5 _ rfl
      exact ⟨rfl, ⟨elem, by simp, rfl, helem⟩, hlen, fun _ => trivial, trivial⟩
    · next sym hk =>
      rw [post_bind, post_advance, post_bind, post_resolve]
      split
      · next hprim =>
        apply build_leaf (Rows.taken h hk) _ rfl
        refine ⟨?_, trivial, trivial, fun _ => trivial, trivial⟩
        rw [NodeKind.parts, PrimType.name_of_ofName? hprim]
        rfl
      · next hother =>
        apply build_leaf (Rows.taken h hk) _ rfl
        exact ⟨rfl, trivial, hother, fun _ => trivial, trivial⟩
    · rw [post_bind, post_fault]
      refine ⟨fun _ => trivial, fun hmode => ?_⟩
      rw [post_bind, post_intern]
      apply build_leaf _ _ rfl
      · exact [.word (.ident (s.names.intern missingName).1)]
      · exact r.leave [.ident _] h hmode
          ⟨rfl, List.suffix_refl _, s.names.resolve_intern missingName⟩ rfl
      · exact ⟨rfl, trivial, s.names.ofName?_intern_missingName, fun _ => trivial, trivial⟩

/-! ### Expressions -/

def FieldParts (f : FieldInit Symbol NodeId) (xs : List Ingredient) : Prop :=
  ∃ b, xs = [.word (.ident f.name), .node b] ∧ f.value = b.id ∧ b.node.kind.isExpr = true

theorem fieldInit_row (hnested : r.Reads isExpr nested) (h : r.Row s [] s) :
    (fieldInit nested).Post c s (fun f s' => ∃ xs, r.Row s xs s' ∧ FieldParts f xs)
      fun _ => True := by
  unfold fieldInit
  apply expectIdent_closes h
  intro name s1 h1
  apply (passes_expect rfl).then (r.row h1)
  intro _ s2 h2
  apply hnested.then h2
  intro value s3 h3 hvalue
  exact ⟨_, h3, value, rfl, rfl, hvalue⟩

theorem fields_made (names : Interner) {fields : List (FieldInit Symbol NodeId)}
    {new : List (List Ingredient)} (h : List.Forall₂ FieldParts fields new) :
    new.flatten.filterMap (·.part? names) = (fields.flatMap fun field =>
        [.inl (.ident (names.resolve field.name)), .inr field.value]) ∧
      ∀ f ∈ fields, ∃ b ∈ nodes new.flatten, b.id = f.value ∧ b.node.kind.isExpr = true := by
  induction h with
  | nil => exact ⟨rfl, by simp⟩
  | @cons f xs fields new hfield _ ih =>
    obtain ⟨b, rfl, hvalue, hexpr⟩ := hfield
    rw [List.flatten_cons, List.filterMap_append, ih.1, Ingredient.nodes_append, List.flatMap_cons,
      hvalue]
    refine ⟨rfl, List.forall_mem_cons.mpr ⟨⟨b, by simp, hvalue.symm, hexpr⟩, fun g hg => ?_⟩⟩
    obtain ⟨b', hb', hsame⟩ := ih.2 g hg
    exact ⟨b', List.mem_append_right _ hb', hsame⟩

theorem structLiteral_reads (hnested : r.Reads isExpr nested) (name : Symbol)
    (h : r.Row s [.word (.ident name)] s') :
    (structLiteral nested name (front c s).span).Post c s' (r.One isExpr s) fun _ => True := by
  unfold structLiteral
  apply (passes_expect rfl).then h
  intro _ s1 h1
  rw [post_bind]
  apply (commaList_row (fun s hs => fieldInit_row hnested hs) h1).imp
  rintro fields s2 ⟨new, h2, hfields⟩
  apply expect_closes rfl h2
  intro close s3 h3
  obtain ⟨hparts, hsorts⟩ := fields_made s3.names hfields
  apply build_first h3 _ rfl
  refine ⟨?_, hsorts, trivial, fun _ => trivial, trivial⟩
  rw [List.filterMap_append, hparts]
  rfl

/-- Values that are nodes themselves, as children of a node. -/
theorem each_sorted {bs used : List Built} (h : ∀ b ∈ bs, P b.node.kind = true)
    (hsub : bs ⊆ used) :
    ∀ id ∈ bs.map (·.id), ∃ b ∈ used, b.id = id ∧ P b.node.kind = true := by
  intro id hid
  obtain ⟨b, hb, rfl⟩ := List.mem_map.mp hid
  exact ⟨b, hsub hb, rfl, h b hb⟩

/-- An optional node as a child. -/
theorem option_sorted {o : Option Built} {used : List Built} (h : ∀ b ∈ o, P b.node.kind = true)
    (hsub : o.toList ⊆ used) :
    ∀ id ∈ o.map (·.id), ∃ b ∈ used, b.id = id ∧ P b.node.kind = true := by
  intro id hid
  obtain ⟨b, hb, rfl⟩ := Option.map_eq_some_iff.mp hid
  exact ⟨b, hsub (Option.mem_toList.mpr hb), rfl, h b hb⟩

theorem arrayLiteral_reads (hnested : r.Reads isExpr nested) :
    r.Reads isExpr (arrayLiteral nested) := by
  intro s h
  unfold arrayLiteral
  apply expect_first rfl h
  intro s1 h1
  rw [post_bind]
  apply (commaList_nodes hnested h1).imp
  rintro elems s2 ⟨h2, helems⟩
  apply expect_closes rfl h2
  intro close s3 h3
  apply build_first h3 _ rfl
  exact ⟨Ingredient.parts_map_node _ _, each_sorted helems (by simp), trivial, fun _ => trivial,
    trivial⟩

/-- A literal has the value of its token and no children. -/
theorem literal_made {kind : TokenKind} {node : NodeKind Symbol NodeId} {mode : Mode}
    {names : Interner} (h : kind.literal? = some node) (hkind : ∃ t ∈ tokens, t.kind = kind) :
    Made mode tokens names kind.bearing node ∧ node.isExpr = true := by
  cases TokenKind.isLiteral h with
  | bool hvalue =>
    refine ⟨⟨?_, trivial, trivial, fun _ => trivial, trivial⟩, rfl⟩
    simp [TokenKind.bearing, Ingredient.part?, TokenKind.value?_keyword, NodeKind.parts, hvalue]
  | int _ => exact ⟨⟨rfl, trivial, .inr hkind, fun _ => trivial, trivial⟩, rfl⟩
  | float _ => exact ⟨⟨rfl, trivial, trivial, fun _ => trivial, hkind⟩, rfl⟩
  | str _ | char _ => exact ⟨⟨rfl, trivial, trivial, fun _ => trivial, trivial⟩, rfl⟩

/-- A primary is made of its token, or of what stands in its brackets. -/
theorem primary_reads (hnested : r.Reads isExpr nested) (inHeader : Bool) :
    r.Reads isExpr (primary nested inHeader) := by
  intro s h
  unfold primary
  rw [post_bind, post_current]
  split
  · next node hnode =>
    have hfront := front_mem h (TokenKind.of_literal? hnode).1
    obtain ⟨hmade, hexpr⟩ := literal_made hnode ⟨_, hfront, rfl⟩
    unfold literal
    rw [post_bind, post_advance]
    exact build_leaf (r.take h) hmade hexpr
  split
  · next sym hk =>
    rw [post_bind, post_advance, post_bind, post_isAtStructBody]
    split
    · exact structLiteral_reads hnested _ (r.row (Rows.taken h hk))
    · apply build_leaf (Rows.taken h hk) _ rfl
      exact ⟨rfl, trivial, trivial, fun _ => trivial, trivial⟩
  · next hk =>
    apply advance_row h (by rw [hk]; rfl)
    intro s1 h1
    apply hnested.then h1
    intro inner s2 h2 hinner
    apply (passes_expect rfl).then h2
    intro _ s3 h3
    exact ⟨h3, hinner⟩
  · exact arrayLiteral_reads hnested s h
  · rw [post_bind, post_fault]
    refine ⟨fun _ => trivial, fun hmode => ?_⟩
    apply build_leaf (r.leave [.int 0] h hmode (.report s _) rfl) _ rfl
    exact ⟨rfl, trivial, .inl rfl, fun _ => trivial, trivial⟩

theorem applyPrefix_reads (hoperand : r.Reads isExpr operand) (op : UnaryOp)
    (h : r.Row s [] s') :
    (applyPrefix operand op (front c s).span).Post c s' (r.One isExpr s) fun _ => True := by
  apply hoperand.then h
  intro x s1 h1 hx
  apply build_first (r.last h1) _ rfl
  exact ⟨rfl, ⟨x, by simp, rfl, hx⟩, trivial, fun _ => trivial, trivial⟩

/-- A prefix takes the row of its operand and makes one node of it. -/
theorem prefixed_reads (hoperand : r.Reads isExpr operand) (hbare : r.Reads isExpr bare) :
    r.Reads isExpr (prefixed operand bare) := by
  intro s h
  unfold prefixed
  rw [post_bind, post_current]
  split
  · next hk =>
    apply advance_row h (by rw [hk]; rfl)
    intro s1 h1
    apply (passes_eat rfl).then h1
    intro mutable s2 h2
    exact applyPrefix_reads hoperand _ h2
  · next hk =>
    apply advance_row h (by rw [hk]; rfl)
    intro s1 h1
    rw [post_bind, post_current, post_bind]
    apply (applyPrefix_reads hoperand .ref (r.empty h1)).imp
    rintro inner s2 ⟨h2, hinner⟩
    apply build_first (r.last (r.append h1 h2)) _ rfl
    exact ⟨rfl, ⟨inner, by simp, rfl, hinner⟩, trivial, fun _ => trivial, trivial⟩
  · split
    · next hop =>
      apply advance_row h (bearing_prefixOp hop)
      intro s1 h1
      exact applyPrefix_reads hoperand _ h1
    · exact hbare s h

/-- A call, an element or a field takes the place of its base. -/
theorem postfixStep_reads {base : Built} (hnested : r.Reads isExpr nested)
    (h : r.One isExpr s base s') :
    (postfixStep nested base).Post c s' (r.One isExpr s) fun _ => True := by
  obtain ⟨h, hbase⟩ := h
  unfold postfixStep
  rw [post_bind, post_current]
  split
  · next hk =>
    apply advance_row h (by rw [hk]; rfl)
    intro s2 h2
    rw [post_bind]
    apply (commaList_nodes hnested h2).imp
    rintro args s3 ⟨h3, hargs⟩
    apply expect_closes rfl h3
    intro close s4 h4
    apply build_base h4 _ rfl
    refine ⟨?_, ⟨⟨base, by simp, rfl, hbase⟩, each_sorted hargs (by simp)⟩, trivial,
      fun _ => trivial, trivial⟩
    exact congrArg (_ :: ·) (Ingredient.parts_map_node _ args)
  · next hk =>
    apply advance_row h (by rw [hk]; rfl)
    intro s2 h2
    apply hnested.then h2
    intro place s3 h3 hplace
    apply expect_closes rfl h3
    intro close s4 h4
    apply build_base h4 _ rfl
    exact ⟨rfl, ⟨⟨base, by simp, rfl, hbase⟩, ⟨place, by simp, rfl, hplace⟩⟩, trivial,
      fun _ => trivial, trivial⟩
  · next hk =>
    apply advance_row h (by rw [hk]; rfl)
    intro s2 h2
    apply expectIdent_closes h2
    intro field s3 h3
    apply build_base h3 _ rfl
    exact ⟨rfl, ⟨base, by simp, rfl, hbase⟩, trivial, fun _ => trivial, trivial⟩
  · exact ⟨h, hbase⟩

theorem infix_made {mode : Mode} {names : Interner} {lhs rhs : Built} (op : InfixOp)
    (hlhs : lhs.node.kind.isExpr = true) (hrhs : rhs.node.kind.isExpr = true) :
    Made mode tokens names [.node lhs, .node rhs] (op.node lhs.id rhs.id) ∧
      (op.node lhs.id rhs.id : NodeKind Symbol NodeId).isExpr = true := by
  cases op <;>
    exact ⟨⟨rfl, ⟨⟨lhs, by simp, rfl, hlhs⟩, ⟨rhs, by simp, rfl, hrhs⟩⟩, trivial,
      fun _ => trivial, trivial⟩, rfl⟩

/-- The three mutual readers at one depth. A chain starts from a node and puts
another in its place. -/
structure ReadsAt (r : Rows c tokens) (depth : Nat) : Prop where
  operand (inHeader : Bool) : r.Reads isExpr (unary depth inHeader)
  postfixes {s s' : ParseState} {base : Built} : r.One isExpr s base s' →
    (postfixChain depth base).Post c s' (r.One isExpr s) fun _ => True
  infixes {s s' : ParseState} {lhs : Built} (inHeader : Bool) (least : Nat) :
    r.One isExpr s lhs s' →
      (infixChain depth inHeader least lhs).Post c s' (r.One isExpr s) fun _ => True

theorem ReadsAt.whole {depth : Nat} (hd : ReadsAt r depth) (inHeader : Bool) (least : Nat) :
    r.Reads isExpr (do infixChain depth inHeader least (← unary depth inHeader)) := by
  intro s h
  rw [post_bind]
  apply (hd.operand inHeader s h).imp
  intro lhs s1 h1
  exact hd.infixes inHeader least h1

theorem readsAt_zero : ReadsAt r 0 where
  operand _ := fun _ _ => trivial
  postfixes h := by
    unfold postfixChain
    rw [post_bind, post_current]
    split
    · trivial
    · exact h
  infixes inHeader least h := by
    unfold infixChain
    rw [post_bind, post_current]
    split
    · split
      · exact h
      · trivial
    · exact h

/-- With one more level, from the readers one level further down. -/
theorem readsAt_succ {depth : Nat} (hd : ReadsAt r depth) : ReadsAt r (depth + 1) where
  operand inHeader := by
    unfold unary
    apply prefixed_reads (hd.operand inHeader)
    intro s h
    rw [post_bind]
    apply (primary_reads (hd.whole false 1) inHeader s h).imp
    intro base s1 h1
    exact hd.postfixes h1
  postfixes h := by
    unfold postfixChain
    rw [post_bind, post_current]
    split
    · rw [post_bind]
      apply (postfixStep_reads (hd.whole false 1) h).imp
      intro whole s2 h2
      exact hd.postfixes h2
    · exact h
  infixes {s s' lhs} inHeader least h := by
    unfold infixChain
    rw [post_bind, post_current]
    split
    · next precedence op hop =>
      split
      · exact h
      apply advance_row h.1 (TokenKind.bearing_infixOp hop)
      intro s2 h2
      rw [post_bind]
      apply (hd.operand inHeader s2 (r.empty h2)).imp
      intro first s3 h3
      rw [post_bind]
      apply (hd.infixes inHeader _ h3).imp
      rintro rhs s4 ⟨h4, hrhs⟩
      obtain ⟨hmade, hexpr⟩ := infix_made op h.2 hrhs
      rw [post_bind]
      apply (build_base (r.last (r.append h2 h4)) hmade hexpr).imp
      intro whole s5 h5
      exact hd.infixes inHeader least h5
    · exact h

theorem readsAt (depth : Nat) : ReadsAt r depth := by
  induction depth with
  | zero => exact readsAt_zero
  | succ depth ih => exact readsAt_succ ih

theorem expr_reads (depth : Nat) (inHeader : Bool) : r.Reads isExpr (expr depth inHeader) :=
  (readsAt depth).whole inHeader 1

end

/-! ### Statements and blocks -/

section

variable {c : ParseSettings} {tokens : List Token} {r : Rows c tokens} {s s' : ParseState}
  {block conditional : Parser Built}

theorem letStmt_reads (depth : Nat) : r.Reads isStmt (letStmt depth) := by
  intro s h
  unfold letStmt
  apply expect_first rfl h
  intro s1 h1
  apply (passes_eat rfl).then h1
  intro mutable s2 h2
  apply expectIdent_closes h2
  intro name s3 h3
  rw [post_bind]
  apply (after_row rfl (type_reads depth) (r.row h3)).imp
  rintro ty s4 ⟨h4, hty⟩
  rw [post_bind]
  apply (after_row rfl (expr_reads depth false) h4).imp
  rintro init s5 ⟨h5, hinit⟩
  apply expect_closes rfl h5
  intro close s6 h6
  apply build_first h6 _ rfl
  refine ⟨by cases ty <;> cases init <;> rfl, ⟨?_, ?_⟩, trivial, fun _ => trivial, trivial⟩
  · exact option_sorted hty (by simp)
  · exact option_sorted hinit (by simp)

theorem returnStmt_reads (depth : Nat) (h : r.Row s [] s)
    (hk : (front c s).kind.bearing = []) :
    (returnStmt depth (front c s).span).Post c s (r.One isStmt s) fun _ => True := by
  have hclose (value : Option Built) (s1 : ParseState)
      (h1 : r.Row s (value.toList.map .node) s1)
      (hvalue : ∀ b ∈ value, b.node.kind.isExpr = true) :
      (do
        let close ← expect (.punct .semicolon)
        build (.returnStmt (value.map (·.id))) ((front c s).span.to close) : Parser Built).Post c s1
          (r.One isStmt s) fun _ => True := by
    apply expect_closes rfl h1
    intro close s2 h2
    apply build_first h2 _ rfl
    exact ⟨by cases value <;> rfl, option_sorted hvalue (by simp), trivial, fun _ => trivial,
      trivial⟩
  unfold returnStmt
  apply advance_row h hk
  intro s1 h1
  apply (passes_isAt _).then h1
  intro atSemicolon s2 h2
  apply (passes_isAt _).then h2
  intro atBrace s3 h3
  dsimp only
  split
  · exact hclose none s3 h3 (by simp)
  · rw [post_bind, post_map]
    apply (expr_reads depth false s3 (r.empty h3)).imp
    rintro value s4 ⟨h4, hvalue⟩
    exact hclose (some value) s4 (r.append h3 h4) (by simpa using hvalue)

theorem jump_reads {kind : NodeKind Symbol NodeId}
    (hmade : ∀ names, Made c.mode tokens names [] kind) (hstmt : kind.isStmt = true)
    (h : r.Row s [] s) (hk : (front c s).kind.bearing = []) :
    (jump kind (front c s).span).Post c s (r.One isStmt s) fun _ => True := by
  unfold jump
  apply advance_row h hk
  intro s1 h1
  apply expect_closes rfl h1
  intro close s2 h2
  exact build_first h2 (hmade _) hstmt

/-- What is assigned to is a place, or there was a fault; a strict reader does
not go on from one. -/
theorem exprOrAssign_reads (depth : Nat) : r.Reads isStmt (exprOrAssign depth) := by
  intro s h
  unfold exprOrAssign
  apply (expr_reads depth false).then h
  intro lhs s1 h1 hlhs
  rw [post_bind, post_current]
  split
  · next op hop =>
    have hvalue (s3 : ParseState) (h3 : r.Row s [.node lhs] s3) (hsame : s3.rest = s1.rest)
        (hplace : c.mode = .strict → lhs.node.kind.isPlace = true) :
        (do
          advance
          let value ← expr depth false
          let close ← expect (.punct .semicolon)
          build (.assign lhs.id op value.id) (lhs.span.to close) : Parser Built).Post c s3
            (r.One isStmt s) fun _ => True := by
      have hk : (front c s3).kind.bearing = [] := by
        rw [front, hsame]
        exact TokenKind.bearing_assignOp hop
      apply advance_row h3 hk
      intro s4 h4
      apply (expr_reads depth false).then h4
      intro value s5 h5 hvalue
      apply expect_closes rfl h5
      intro close s6 h6
      apply build_base h6 _ rfl
      exact ⟨rfl, ⟨⟨lhs, by simp, rfl, hlhs⟩, ⟨value, by simp, rfl, hvalue⟩⟩, trivial,
        fun hstrict => ⟨lhs, by simp, rfl, hplace hstrict⟩, trivial⟩
    split
    · rw [post_bind, post_fault]
      refine ⟨fun _ => trivial, fun hlenient => ?_⟩
      apply hvalue (s1.report _) (Rows.reported h1 hlenient _) rfl
      intro hstrict
      rw [hlenient] at hstrict
      cases hstrict
    · next hplace => exact hvalue s1 h1 rfl fun _ => by simpa using hplace
  · apply expect_closes rfl h1
    intro close s3 h3
    apply build_base h3 _ rfl
    exact ⟨rfl, ⟨lhs, by simp, rfl, hlhs⟩, trivial, fun _ => trivial, trivial⟩

/-- Each statement is made of what was read since its first token. -/
theorem stmt_reads (depth : Nat) (hblock : r.Reads isBlock block)
    (hconditional : r.Reads isIf conditional) :
    r.Reads isStmt (Parser.stmt depth block conditional) := by
  intro s h
  unfold Parser.stmt
  rw [post_bind, post_current]
  split
  · exact letStmt_reads depth s h
  · next hk => exact returnStmt_reads depth h (by rw [hk]; rfl)
  · exact hconditional.imp (fun _ h => isStmt_of_isBranch (isBranch_of_isIf h)) s h
  · next hk =>
    apply advance_row h (by rw [hk]; rfl)
    intro s1 h1
    apply (expr_reads depth true).then h1
    intro cond s2 h2 hcond
    apply hblock.then h2
    intro body s3 h3 hbody
    apply build_first (r.last h3) _ rfl
    exact ⟨rfl, ⟨⟨cond, by simp, rfl, hcond⟩, ⟨body, by simp, rfl, hbody⟩⟩, trivial,
      fun _ => trivial, trivial⟩
  · next hk =>
    apply advance_row h (by rw [hk]; rfl)
    intro s1 h1
    apply expectIdent_closes h1
    intro var s2 h2
    apply (passes_expect rfl).then (r.row h2)
    intro _ s3 h3
    apply (expr_reads depth true).then h3
    intro iter s4 h4 hiter
    apply hblock.then h4
    intro body s5 h5 hbody
    apply build_first (r.last h5) _ rfl
    exact ⟨rfl, ⟨⟨iter, by simp, rfl, hiter⟩, ⟨body, by simp, rfl, hbody⟩⟩, trivial,
      fun _ => trivial, trivial⟩
  iterate 2
    next hk =>
      apply jump_reads _ rfl h (by rw [hk]; rfl)
      exact fun _ => ⟨rfl, trivial, trivial, fun _ => trivial, trivial⟩
  · exact hblock.imp (fun _ h => isStmt_of_isBranch (isBranch_of_isBlock h)) s h
  · exact exprOrAssign_reads depth s h

/-- A round adds its statement to the row or drops it. -/
theorem stmtsUntil_row {depth : Nat}
    (hstmt : r.Reads isStmt (stmt depth (Parser.block depth) (Parser.conditional depth)))
    (fuel : Nat) (done : Array NodeId) (bs : List Built) (h : r.Row s (bs.map .node) s')
    (hids : bs.map (·.id) = done.toList) (hsorts : ∀ b ∈ bs, b.node.kind.isStmt = true) :
    (stmtsUntil (stmt depth (Parser.block depth) (Parser.conditional depth)) fuel done).Post c s'
      (r.Several isStmt s) fun _ => True := by
  induction fuel generalizing done bs s' with
  | zero => exact ⟨bs, h, hids, hsorts⟩
  | succ fuel ih =>
    unfold stmtsUntil
    rw [post_bind, post_isAt, post_bind, post_isAt]
    split
    · exact ⟨bs, h, hids, hsorts⟩
    next hmore =>
    simp only [Bool.or_eq_true, decide_eq_true_eq, not_or] at hmore
    obtain ⟨hclose, hend⟩ := hmore
    rw [post_bind, post_eat]
    split
    · next hlone => exact ih done bs (r.row (Rows.skip h (by rw [hlone]; rfl))) hids hsorts
    next hlone =>
    simp only [Bool.false_eq_true, if_false]
    rw [post_bind, post_consumed, post_bind]
    apply (Post.and (hstmt s' (r.empty h)) post_run).imp
    rintro one s1 ⟨⟨h1, hone⟩, hrun⟩
    rw [post_bind, post_consumed]
    split
    · next hsame =>
      rw [post_bind, post_advance]
      exact ih done bs (r.drop h h1 (drops_of_run hclose hend hlone hrun hsame)) hids hsorts
    · obtain ⟨hrow, hids, hsorts⟩ := Rows.Several.push (r.append h h1) hids hsorts hone
      exact ih _ _ hrow hids hsorts

theorem braced_reads {depth : Nat}
    (hstmt : r.Reads isStmt (stmt depth (Parser.block depth) (Parser.conditional depth))) :
    r.Reads isBlock
      (braced (stmt depth (Parser.block depth) (Parser.conditional depth))) := by
  intro s h
  unfold braced
  apply expect_first rfl h
  intro s1 h1
  rw [post_bind, post_rounds, post_bind]
  apply (stmtsUntil_row hstmt _ #[] [] h1 rfl (List.forall_mem_nil _)).imp
  rintro _ s2 ⟨bs, h2, rfl, hsorts⟩
  apply expect_closes rfl h2
  intro close s3 h3
  apply build_first h3 _ rfl
  exact ⟨Ingredient.parts_map_node _ _, each_sorted hsorts (by simp), trivial, fun _ => trivial,
    trivial⟩

theorem ifElse_reads (depth : Nat) (hblock : r.Reads isBlock block)
    (hconditional : r.Reads isIf conditional) :
    r.Reads isIf (ifElse depth block conditional) := by
  intro s h
  have helse : r.Reads isBranch (do
      if ← isAt (.keyword .ifKw) then conditional else block) := by
    intro s1 h1
    rw [post_bind, post_isAt]
    split
    · exact hconditional.imp (fun _ => isBranch_of_isIf) s1 h1
    · exact hblock.imp (fun _ => isBranch_of_isBlock) s1 h1
  unfold ifElse
  apply expect_first rfl h
  intro s1 h1
  apply (expr_reads depth true).then h1
  intro cond s2 h2 hcond
  apply hblock.then h2
  intro thenBranch s3 h3 hthen
  rw [post_bind]
  apply (after_row rfl helse h3).imp
  rintro elseBranch s4 ⟨h4, helseBranch⟩
  cases elseBranch with
  | none =>
    rw [Option.toList_none, List.map_nil, List.append_nil] at h4
    apply build_first (r.last h4) _ rfl
    exact ⟨rfl, ⟨⟨cond, by simp, rfl, hcond⟩, ⟨thenBranch, by simp, rfl, hthen⟩, by simp⟩, trivial,
      fun _ => trivial, trivial⟩
  | some last =>
    apply build_first (r.last h4) _ rfl
    exact ⟨rfl, ⟨⟨cond, by simp, rfl, hcond⟩, ⟨thenBranch, by simp, rfl, hthen⟩,
      option_sorted helseBranch (by simp)⟩, trivial, fun _ => trivial, trivial⟩

theorem block_and_conditional_read (depth : Nat) :
    r.Reads isBlock (Parser.block depth) ∧ r.Reads isIf (Parser.conditional depth) := by
  induction depth with
  | zero => exact ⟨fun _ _ => trivial, fun _ _ => trivial⟩
  | succ depth ih =>
    constructor
    · exact braced_reads (stmt_reads depth ih.1 ih.2)
    · exact ifElse_reads depth ih.1 ih.2

end

/-! ### Items and programs -/

section

variable {c : ParseSettings} {tokens : List Token} {r : Rows c tokens} {s s' : ParseState}

theorem param_reads (depth : Nat) : r.Reads isParam (param depth) := by
  intro s h
  unfold param
  rw [post_bind, post_current]
  apply (passes_eat rfl).then h
  intro mutable s1 h1
  apply expectIdent_closes h1
  intro name s2 h2
  apply (passes_expect rfl).then (r.row h2)
  intro _ s3 h3
  apply (type_reads depth).then h3
  intro ty s4 h4 hty
  apply build_first (r.last h4) _ rfl
  exact ⟨rfl, ⟨ty, by simp, rfl, hty⟩, trivial, fun _ => trivial, trivial⟩

theorem structField_reads (depth : Nat) : r.Reads isField (structField depth) := by
  intro s h
  unfold structField
  rw [post_bind, post_current]
  apply expectIdent_closes h
  intro name s1 h1
  apply (passes_expect rfl).then (r.row h1)
  intro _ s2 h2
  apply (type_reads depth).then h2
  intro ty s3 h3 hty
  apply build_first (r.last h3) _ rfl
  exact ⟨rfl, ⟨ty, by simp, rfl, hty⟩, trivial, fun _ => trivial, trivial⟩

theorem function_reads (depth : Nat) (isPublic : Bool) (h : r.Row s [] s') :
    (function depth isPublic (front c s).span).Post c s' (r.One isItem s) fun _ => True := by
  unfold function
  apply (passes_expect rfl).then h
  intro _ s1 h1
  apply expectIdent_closes h1
  intro name s2 h2
  apply (passes_expect rfl).then (r.row h2)
  intro _ s3 h3
  rw [post_bind]
  apply (commaList_nodes (param_reads depth) h3).imp
  rintro params s4 ⟨h4, hparams⟩
  apply (passes_expect rfl).then h4
  intro _ s5 h5
  rw [post_bind]
  apply (after_row rfl (type_reads depth) h5).imp
  rintro ret s6 ⟨h6, hret⟩
  apply (block_and_conditional_read depth).1.then h6
  intro body s7 h7 hbody
  apply build_first (r.last h7) _ rfl
  refine ⟨?_, ⟨?_, ?_, ⟨body, by simp, rfl, hbody⟩⟩, trivial, fun _ => trivial, trivial⟩
  · simp [NodeKind.parts, NodeKind.children, Ingredient.part?, Option.toList_map,
      Function.comp_def]
  · exact each_sorted hparams (by simp)
  · exact option_sorted hret (by simp)

theorem struct_reads (depth : Nat) (h : r.Row s [] s') :
    (struct depth (front c s).span).Post c s' (r.One isItem s) fun _ => True := by
  unfold struct
  apply (passes_expect rfl).then h
  intro _ s1 h1
  apply expectIdent_closes h1
  intro name s2 h2
  apply (passes_expect rfl).then (r.row h2)
  intro _ s3 h3
  rw [post_bind]
  apply (commaList_nodes (structField_reads depth) h3).imp
  rintro fields s4 ⟨h4, hfields⟩
  apply expect_closes rfl h4
  intro close s5 h5
  apply build_first h5 _ rfl
  refine ⟨?_, each_sorted hfields (by simp), trivial, fun _ => trivial, trivial⟩
  exact congrArg (_ :: ·) (Ingredient.parts_map_node _ fields)

theorem item_reads (depth : Nat) : r.Reads isItem (item depth) := by
  intro s h
  unfold item
  rw [post_bind, post_current]
  apply (passes_eat rfl).then h
  intro isPublic s1 h1
  apply (passes_isAt _).then h1
  intro atStruct s2 h2
  split
  · exact struct_reads depth h2
  · exact function_reads depth isPublic h2

/-- A separator is taken, or all stays as it is. -/
theorem eatSeparator_row {xs : List Ingredient} (h : r.Row s xs s') :
    eatSeparator.Post c s' (fun more s'' => r.Row s xs s'' ∧ (more = false → s'' = s'))
      fun _ => True := by
  unfold eatSeparator
  rw [post_bind, post_eat]
  split
  · next hk => exact ⟨r.row (Rows.skip h (by rw [hk]; rfl)), nofun⟩
  simp only [Bool.false_eq_true, if_false]
  rw [post_eat]
  split
  · next hk => exact ⟨r.row (Rows.skip h (by rw [hk]; rfl)), nofun⟩
  · exact ⟨h, fun _ => rfl⟩

def pathParts (path : List Symbol) : List Ingredient :=
  path.map fun name => .word (.ident name)

/-- A path only grows, and may end with each of its names. -/
theorem pathTail_closes (fuel : Nat) {path : Array Symbol} {last : Span}
    (h : r.Closes s (pathParts path.toList) last s') (hpath : path.toList ≠ []) :
    (pathTail fuel path last).Post c s'
      (fun x s'' => r.Closes s (pathParts x.1) x.2 s'' ∧ x.1 ≠ []) fun _ => True := by
  induction fuel generalizing path last s' with
  | zero => exact ⟨h, hpath⟩
  | succ fuel ih =>
    unfold pathTail
    rw [post_bind]
    apply (eatSeparator_row (r.row h)).imp
    rintro more s1 ⟨h1, hsame⟩
    cases more with
    | false =>
      rw [hsame rfl]
      exact ⟨h, hpath⟩
    | true =>
      apply expectIdent_closes h1
      intro name s2 h2
      refine ih (?_ : r.Closes s (pathParts (path.push name.1).toList) _ s2) (by simp)
      rw [Array.toList_push, pathParts, List.map_append]
      exact h2

theorem importPath_reads (h : r.Row s [] s) (hk : (front c s).kind.bearing = []) :
    importPath.Post c s (r.One isItem s) fun _ => True := by
  unfold importPath
  rw [post_bind, post_current]
  apply advance_row h hk
  intro s1 h1
  apply expectIdent_closes h1
  intro first s2 h2
  rw [post_bind, post_rounds, post_bind]
  have hfirst : r.Closes s (pathParts #[first.1].toList) first.2 s2 := h2
  apply (pathTail_closes _ hfirst (by simp)).imp
  rintro path s3 ⟨h3, hpath⟩
  have hmade (names : Interner) :
      Made c.mode tokens names (pathParts path.1) (.importPath path.1) := by
    refine ⟨?_, trivial, hpath, fun _ => trivial, trivial⟩
    rw [pathParts, List.filterMap_map, NodeKind.parts, ← List.filterMap_eq_map]
    rfl
  rw [post_bind, post_current, post_bind, post_eat]
  split
  · next hend => exact build_first (Rows.skip (r.row h3) (by rw [hend]; rfl)) (hmade _) rfl
  · exact build_first h3 (hmade _) rfl

/-- A round adds its item to the row; what is skipped adds nothing. -/
theorem itemsToEnd_row (depth fuel : Nat) (done : Array NodeId) (bs : List Built)
    (h : r.Row s (bs.map .node) s') (hids : bs.map (·.id) = done.toList)
    (hsorts : ∀ b ∈ bs, b.node.kind.isItem = true) :
    (itemsToEnd depth fuel done).Post c s' (r.Several isItem s) fun _ => True := by
  induction fuel generalizing done bs s' with
  | zero => exact ⟨bs, h, hids, hsorts⟩
  | succ fuel ih =>
    have hround {p : Parser Built} (hp : p.Post c s' (r.One isItem s') fun _ => True) :
        (do let b ← p; itemsToEnd depth fuel (done.push b.id) : Parser (List NodeId)).Post c s'
          (r.Several isItem s) fun _ => True := by
      rw [post_bind]
      apply hp.imp
      intro b s1 hb
      obtain ⟨hrow, hids, hsorts⟩ := Rows.Several.push (r.append h hb.1) hids hsorts hb.2
      exact ih _ _ hrow hids hsorts
    unfold itemsToEnd
    rw [post_bind, post_current]
    split
    · exact ⟨bs, h, hids, hsorts⟩
    iterate 3 exact hround (item_reads depth s' (r.empty h))
    iterate 2
      next hk => exact hround (importPath_reads (r.empty h) (by rw [hk]; rfl))
    · rw [post_bind, post_fault]
      refine ⟨fun _ => trivial, fun hmode => ?_⟩
      unfold skipToItem
      rw [bind_assoc, post_bind, post_advance, post_bind, post_advanceWhile]
      apply ih done bs (r.move (r.move _ hmode (.next _)) hmode (.skip _ _)) hids hsorts
      exact Rows.reported h hmode _

/-- The root holds the items, up to the token at which it stops, and is built
last. -/
theorem program_row (h : r.Row s [] s) :
    program.Post c s (fun root s' => ∃ bs : List Built, ∃ s1, r.Row s (bs.map .node) s1 ∧
        Made c.mode tokens s1.names (bs.map .node) (.program (bs.map (·.id))) ∧
        root = ⟨s1.arena.size, .program (bs.map (·.id)), (front c s).span.to (front c s1).span⟩ ∧
        s' = s1.grow root.node) fun _ => True := by
  unfold program
  rw [post_bind, post_current, post_bind, post_read, post_bind, post_rounds, post_bind]
  apply (itemsToEnd_row c.maxDepth _ #[] [] h rfl (List.forall_mem_nil _)).imp
  rintro _ s1 ⟨bs, h1, rfl, hsorts⟩
  rw [post_bind, post_current, post_build]
  refine ⟨fun _ _ => trivial, fun _ => ⟨bs, s1, h1, ?_, rfl, rfl⟩⟩
  exact ⟨Ingredient.parts_map_node _ _, each_sorted hsorts (by simp), trivial, fun _ => trivial,
    trivial⟩

end

/-! ### Histories -/

/-- The nodes join the loose ones, the latest on top. -/
structure Loosened (c : ParseSettings) (tokens : List Token) (s : ParseState) (bs : List Built)
    (s' : ParseState) : Prop where
  within : s'.rest <:+ tokens
  assembly : ∀ loose, Assembly c tokens s loose → Assembly c tokens s' (bs.reverse ++ loose)

section

variable {c : ParseSettings} {tokens : List Token} {s s' s'' : ParseState} {bs bs' : List Built}
  {b : Built}

theorem Loosened.append (h : Loosened c tokens s bs s') (h' : Loosened c tokens s' bs' s'') :
    Loosened c tokens s (bs ++ bs') s'' := by
  refine ⟨h'.within, fun loose hs => ?_⟩
  rw [List.reverse_append, List.append_assoc]
  exact h'.assembly _ (h.assembly loose hs)

theorem Loosened.move (h : Loosened c tokens s bs s') (hmoved : s'.Moved s'') :
    Loosened c tokens s bs s'' :=
  ⟨hmoved.rest.trans h.within, fun loose hs => (h.assembly loose hs).move hmoved⟩

/-- What a node is made of is no longer loose. -/
theorem Loosened.node {kind : NodeKind Symbol NodeId} (span : Span)
    (h : Loosened c tokens s bs s') (hformed : Formed c.mode tokens s'.names bs kind) :
    Loosened c tokens s [⟨s'.arena.size, kind, span⟩] (s'.grow ⟨kind, span⟩) := by
  refine ⟨h.within, fun loose hs => (h.assembly loose hs).node span ?_⟩
  rw [List.reverse_reverse]
  exact hformed

theorem Loosened.drop {depth : Nat} (h : Loosened c tokens s bs s')
    (hdrops : Drops (stmt depth (block depth) (conditional depth)) c s' b s'') :
    Loosened c tokens s bs s'' :=
  ⟨hdrops.idle.rest.trans h.within, fun loose hs => (h.assembly loose hs).drop hdrops⟩

end

/-- Where the nodes stand does not matter, nor what other tokens bear. -/
def looseRows (c : ParseSettings) (tokens : List Token) : Rows c tokens where
  Row s xs s' := Loosened c tokens s (nodes xs) s'
  Closes s xs _ s' := Loosened c tokens s (nodes xs) s'
  rest h := h.within.subset
  empty h := ⟨h.within, fun _ hs => hs⟩
  append h h' := by
    rw [Ingredient.nodes_append]
    exact h.append h'
  row h := h
  take h := by
    rw [Ingredient.nodes_append, TokenKind.nodes_bearing, List.append_nil]
    exact h.move (.next _)
  move h _ hmoved := h.move hmoved
  leave missing h _ hmoved _ := by
    rw [Ingredient.nodes_append, Ingredient.nodes_map_word, List.append_nil]
    exact h.move hmoved
  last h := h
  first h hmade := h.node _ hmade.formed
  base h hmade := h.node _ hmade.formed
  drop h _ hdrops := h.drop hdrops

end Parser

/-- A unit that was read has a history, and only its root is left. -/
theorem readProgram_history {lexed : Lexed} {opts : Options} {parsed : Parsed}
    (h : readProgram lexed opts = .ok parsed) :
    ∃ s root dropped,
      History (.ofStream lexed opts) (splitEof lexed.tokens).1 s [root] dropped ∧
      (∃ items, root.node.kind = .program items) ∧ root.id + 1 = s.arena.size ∧
      parsed = .ofRun (root, s) := by
  have hstart : (Parser.looseRows (.ofStream lexed opts) (splitEof lexed.tokens).1).Row
      (.ofStream lexed opts) [] (.ofStream lexed opts) :=
    ⟨List.suffix_refl _, fun _ hs => hs⟩
  obtain ⟨root, _, ⟨bs, s1, h1, hmade, hroot, rfl⟩, hparsed⟩ :=
    (Parser.program_row hstart).of_readProgram h
  obtain ⟨dropped, hs⟩ := (h1.node root.span hmade.formed).assembly [] (.start rfl rfl)
  subst hroot
  exact ⟨_, _, dropped, hs, ⟨_, rfl⟩, (s1.size_grow _).symm, hparsed⟩

end StagedCompiler
