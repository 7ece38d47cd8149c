import StagedCompiler.Proofs.Lexer.CompactText
import StagedCompiler.Proofs.Parser.SoleStatement

/-!
Which types and which chains of prefix operators come back from their compact
text. The reader of types knows no double ampersand, so a reference to a
reference does not come back if the outer one is not mutable. The reader of
expressions takes a double ampersand for two references, but the second of them
is never mutable. Main statement: these are the only obstacles, and each is
reported as what it is.
-/

namespace StagedCompiler

namespace Tree

def Annotated (P : Tree → Prop) (t : Tree) : Prop :=
  ∃ ty span, P ty ∧ t = node (.letStmt plainName.text false (some ty) none) span

def Initialized (P : Tree → Prop) (t : Tree) : Prop :=
  ∃ init span, P init ∧ t = node (.letStmt plainName.text false none (some init)) span

end Tree

def ParseFault.Ends (f : ParseFault) (ds : Diagnostics) : Prop :=
  ∃ (before : Diagnostics) (span : Span), ds = before.push ⟨.parse, f.message, some span⟩

namespace Parser

/-- If `A` holds, the reader leaves tokens of the given kinds and the given room,
and its node stands for a tree with `P`; if not, it ends with the fault. -/
def ReadsIf (names : Interner) (c : ParseSettings) (s : ParseState) (reader : Parser Built)
    (kinds : List TokenKind) (room : Nat) (A : Prop) (f : ParseFault) (P : Tree → Prop) : Prop :=
  reader.Post c s (fun b s' => A ∧ Left names c s' kinds room ∧ Stands names s' b.id P)
    fun ds => ¬A ∧ f.Ends ds

section

variable {names : Interner} {c : ParseSettings} {s : ParseState} {reader : Parser Built}
  {kinds : List TokenKind} {room : Nat} {A A' : Prop} {f : ParseFault} {P P' : Tree → Prop}

theorem ReadsIf.congr (h : ReadsIf names c s reader kinds room A f P) (hA : A ↔ A') :
    ReadsIf names c s reader kinds room A' f P :=
  propext hA ▸ h

theorem ReadsIf.imp (h : ReadsIf names c s reader kinds room A f P) (hP : ∀ t, P t → P' t) :
    ReadsIf names c s reader kinds room A f P' :=
  Post.imp h fun _ _ hb => ⟨hb.1, hb.2.1, hb.2.2.imp hP⟩

/-- A node above the one that was read takes a place of the room. -/
theorem ReadsIf.wrap (h : ReadsIf names c s reader kinds (room + 1) A f P)
    (node : NodeId → NodeKind Symbol NodeId) (span : Built → Span)
    (hwidth : ∀ id, (node id).children.length ≤ 2)
    (hnode : ∀ id (child : NodeId → Tree) span, P (child id) →
      P' (.node ((node id).map names.resolve child) span)) :
    ReadsIf names c s (reader >>= fun b => build (node b.id) (span b)) kinds room A f P' := by
  unfold ReadsIf
  rw [post_bind]
  refine Post.imp h ?_
  rintro b s1 ⟨ha, hs1, hb⟩
  exact hs1.post_build (hwidth b.id) ⟨ha, hs1.grow _, stands_grow (hnode _ _ _ hb.lookup)⟩

theorem ReadsIf.operator (h : ReadsIf names c s reader kinds (room + 1) A f P) (op : UnaryOp)
    (start : Span) : ReadsIf names c s (applyPrefix reader op start) kinds room A f
      fun t => ∃ u, t.kind = .unary op u ∧ P u :=
  h.wrap (.unary op) _ (by simp [NodeKind.children]) fun _ _ _ hu => ⟨_, rfl, hu⟩

theorem ReadsIf.of_fault (hstrict : c.mode = .strict) (hno : ¬A) (span : Span)
    (more : Unit → Parser Built) :
    ReadsIf names c s (fault f span >>= more) kinds room A f P := by
  unfold ReadsIf
  rw [post_bind, post_fault_strict hstrict]
  exact ⟨hno, _, _, rfl⟩

end

end Parser

/-! ### Types -/

namespace TypeTree

theorem tokens_behind {ty : TypeTree} (hother : ty.isRef = false) :
    ty.tokens true = .punct .amp :: ty.tokens false := by
  cases ty with
  | prim p => rfl
  | custom name other => rfl
  | array elem len small => rfl
  | ref mutable inner => cases hother

theorem tokens_fused {ty : TypeTree} (href : ty.isRef = true) :
    ∃ more, ty.tokens true = .punct .andAnd :: more := by
  cases ty with
  | prim p => cases href
  | custom name other => cases href
  | array elem len small => cases href
  | ref mutable inner => cases mutable <;> exact ⟨_, rfl⟩

/-- The tokens of other types than references start with a name or a bracket. -/
theorem tokens_start {ty : TypeTree} (hother : ty.isRef = false) :
    ∃ first more, ty.tokens false = first :: more ∧
      ∀ symbol, first.kind symbol ≠ .keyword .mutKw := by
  cases ty with
  | prim p => exact ⟨_, _, rfl, fun _ => by simp [SourceToken.kind]⟩
  | custom name other => exact ⟨_, _, rfl, fun _ => by simp [SourceToken.kind]⟩
  | array elem len small => exact ⟨_, _, rfl, fun _ => by simp [SourceToken.kind]⟩
  | ref mutable inner => cases hother

end TypeTree

namespace Parser

section

variable {names : Interner} {c : ParseSettings} {s : ParseState} {kinds : List TokenKind}
  {room depth : Nat} {symbol : String → Symbol}

theorem type_name (depth : Nat) {name : String}
    (h : Left names c s (.ident (symbol name) :: kinds) (room + 1))
    (hname : names.resolve (symbol name) = name) :
    ReadsIf names c s (type (depth + 1)) kinds room True (.expected "type" (.punct .andAnd))
      fun t => t.kind = (PrimType.ofName? name).elim (.namedType name) .primType := by
  unfold ReadsIf type
  rw [post_bind, post_current, h.front]
  dsimp only
  rw [post_bind, post_advance, post_bind, post_resolve, h.next.table, hname]
  cases hprim : PrimType.ofName? name with
  | some prim =>
    exact h.next.post_build (by simp [NodeKind.children])
      ⟨trivial, h.next.grow _, stands_grow rfl⟩
  | none =>
    refine h.next.post_build (by simp [NodeKind.children])
      ⟨trivial, h.next.grow _, stands_grow ?_⟩
    change NodeKind.namedType (names.resolve (symbol name)) = _
    rw [hname]
    rfl

theorem post_arrayLength {len : Nat} {Q : Nat → ParseState → Prop} {E : Diagnostics → Prop}
    (h : Left names c s (.int len :: kinds) room) (hQ : Q len s.next) :
    arrayLength.Post c s Q E := by
  unfold arrayLength
  rw [post_bind, post_current, h.front]
  dsimp only
  rw [if_pos (Int.natCast_nonneg len), post_bind, post_advance, post_pure]
  exact hQ

section

variable {more : List TokenKind} {left len : Nat} {A : Prop} {f : ParseFault}
  {P : Tree → Prop}

/-- An array type comes back if its element type does. -/
theorem type_array (h : Left names c s (.punct .lbracket :: more) left)
    (hread : ReadsIf names c s.next (type depth)
      (.punct .semicolon :: .int len :: .punct .rbracket :: kinds) (room + 1) A f P) :
    ReadsIf names c s (type (depth + 1)) kinds room A f
      fun t => ∃ u, t.kind = .arrayType u len ∧ P u := by
  unfold ReadsIf type
  rw [post_bind, post_current, h.front]
  dsimp only
  rw [post_bind, post_advance, post_bind]
  refine Post.imp hread ?_
  rintro u s1 ⟨ha, hs1, hu⟩
  rw [post_bind]
  refine hs1.post_expect fun _ => ?_
  rw [post_bind]
  refine post_arrayLength hs1.next ?_
  rw [post_bind]
  refine hs1.next.next.post_expect fun close => ?_
  refine hs1.next.next.next.post_build (by simp [NodeKind.children]) ?_
  have hlater : Grown names s1 s1.next.next.next := .of_arena (by simp)
  exact ⟨ha, hs1.next.next.next.grow _, stands_grow ⟨_, rfl, (hu.later hlater).lookup⟩⟩

theorem type_ref {mutable : Bool} {s1 : ParseState} (h : Left names c s (.punct .amp :: more) left)
    (heat : ∀ {Q : Bool → ParseState → Prop} {E : Diagnostics → Prop}, Q mutable s1 →
      (eat (.keyword .mutKw)).Post c s.next Q E)
    (hread : ReadsIf names c s1 (type depth) kinds (room + 1) A f P) :
    ReadsIf names c s (type (depth + 1)) kinds room A f
      fun t => ∃ u, t.kind = .refType mutable u ∧ P u := by
  unfold ReadsIf type
  rw [post_bind, post_current, h.front]
  dsimp only
  rw [post_bind, post_advance, post_bind]
  refine heat ?_
  exact hread.wrap (.refType mutable) _ (by simp [NodeKind.children]) fun _ _ _ hu => ⟨_, rfl, hu⟩

theorem type_andAnd (hstrict : c.mode = .strict) (hno : ¬A)
    (h : Left names c s (.punct .andAnd :: more) left) :
    ReadsIf names c s (type (depth + 1)) kinds room A (.expected "type" (.punct .andAnd)) P := by
  unfold ReadsIf type
  rw [post_bind, post_current, h.front]
  exact ReadsIf.of_fault hstrict hno _ _

end

/-- A type is read from its tokens unless an ampersand of it was lost. -/
theorem type_compact (hstrict : c.mode = .strict) (ty : TypeTree) (hdepth : ty.size ≤ depth)
    (hknown : ∀ name, .ident name ∈ ty.tokens false →
      names.resolve (symbol name.text) = name.text)
    (h : Left names c s ((ty.tokens false).map (SourceToken.kind symbol) ++ kinds)
      (room + ty.size)) :
    ReadsIf names c s (type depth) kinds room ty.Spaced (.expected "type" (.punct .andAnd))
      ty.Reads := by
  induction ty generalizing s kinds room depth with
  | prim p =>
    obtain ⟨depth, rfl⟩ := Nat.exists_eq_add_one.mpr hdepth
    refine (type_name depth h (hknown p.identifier List.mem_cons_self)).imp fun t ht => ?_
    rw [TypeTree.Reads, ht]
    change (PrimType.ofName? p.name).elim _ _ = _
    rw [p.ofName?_name, Option.elim_some]
  | custom name other =>
    obtain ⟨depth, rfl⟩ := Nat.exists_eq_add_one.mpr hdepth
    refine (type_name depth h (hknown name List.mem_cons_self)).imp fun t ht => ?_
    rw [TypeTree.Reads, ht, other, Option.elim_none]
  | array elem len small ih =>
    obtain ⟨depth, rfl⟩ := Nat.exists_eq_add_one.mpr (Nat.zero_lt_of_lt hdepth)
    have hopen : Left names c s (.punct .lbracket :: ((elem.tokens false).map
        (SourceToken.kind symbol) ++ .punct .semicolon :: .int len :: .punct .rbracket :: kinds))
        (room + 1 + elem.size) := by
      have hroom : room + (elem.size + 1) = room + 1 + elem.size := by omega
      rw [TypeTree.size, hroom] at h
      simpa [TypeTree.tokens, pendingMarks, SourceToken.kind] using h
    refine type_array hopen (ih (Nat.le_of_succ_le_succ hdepth) (fun name hname => ?_) hopen.next)
    exact hknown name (List.mem_cons_of_mem _ (List.mem_append_left _ hname))
  | ref mutable inner ih =>
    obtain ⟨depth, rfl⟩ := Nat.exists_eq_add_one.mpr (Nat.zero_lt_of_lt hdepth)
    have hle : inner.size ≤ depth := Nat.le_of_succ_le_succ hdepth
    have hroom : room + (inner.size + 1) = room + 1 + inner.size := by omega
    rw [TypeTree.size, hroom] at h
    cases mutable with
    | true =>
      have hspaced : inner.Spaced ↔ (TypeTree.ref true inner).Spaced :=
        (and_iff_right fun hno => Bool.noConfusion hno).symm
      have hread := ih hle (fun name hname => hknown name
        (List.mem_cons_of_mem _ (List.mem_cons_of_mem _ hname))) (Left.next (Left.next h))
      exact type_ref h h.next.post_eat (hread.congr hspaced)
    | false =>
      -- The ampersand is one with the first of the inner type if that has one.
      cases href : inner.isRef with
      | true =>
        obtain ⟨more, hmore⟩ := TypeTree.tokens_fused href
        rw [TypeTree.tokens, hmore] at h
        refine type_andAnd hstrict (fun hspaced => ?_) h
        cases href.symm.trans (hspaced.1 rfl)
      | false =>
        have hspaced : inner.Spaced ↔ (TypeTree.ref false inner).Spaced :=
          (and_iff_right fun _ => href).symm
        obtain ⟨first, more, hfirst, hother⟩ := TypeTree.tokens_start href
        rw [TypeTree.tokens, TypeTree.tokens_behind href] at h hknown
        have hread := ih hle (fun name hname => hknown name (List.mem_cons_of_mem _ hname))
          (Left.next h)
        rw [hfirst] at h
        exact type_ref h (h.next.post_eat_other (hother symbol)) (hread.congr hspaced)

end

end Parser

/-! ### Prefix operators -/

namespace PrefixChain

/-- Tokens that start with no ampersand stay as they are behind one. -/
theorem tokens_behind {ops : List UnaryOp} (x : Identifier) (href : ops.head? ≠ some .ref)
    (hmut : ops.head? ≠ some .refMut) : ∃ first more, tokens x false ops = first :: more ∧
      tokens x true ops = .punct .amp :: first :: more ∧
      ∀ symbol, first.kind symbol ≠ .keyword .mutKw := by
  cases ops with
  | nil => exact ⟨_, _, rfl, rfl, fun _ => by simp [SourceToken.kind]⟩
  | cons op ops =>
    cases op with
    | not | neg | deref => exact ⟨_, _, rfl, rfl, fun _ => by simp [SourceToken.kind]⟩
    | ref => exact absurd rfl href
    | refMut => exact absurd rfl hmut

theorem name_mem_tokens (x : Identifier) (pending : Bool) (ops : List UnaryOp) :
    .ident x ∈ tokens x pending ops := by
  induction ops generalizing pending with
  | nil => simp [tokens]
  | cons op ops ih => cases op <;> cases pending <;> simp [tokens, ih]

theorem evenRefs_behind {ops : List UnaryOp} (href : ops.head? ≠ some .ref)
    (hmut : ops.head? ≠ some .refMut) : EvenRefs true ops ↔ EvenRefs false ops := by
  cases ops with
  | nil => exact Iff.rfl
  | cons op ops =>
    cases op with
    | not | neg | deref => exact Iff.rfl
    | ref => exact absurd rfl href
    | refMut => exact absurd rfl hmut

/-- The ampersand that is still to be read belongs to a reference. -/
def pendingOps (pending : Bool) : List UnaryOp :=
  if pending then [.ref] else []

end PrefixChain

namespace Parser

section

variable {names : Interner} {c : ParseSettings} {s : ParseState} {kinds : List TokenKind}
  {room depth : Nat} {symbol : String → Symbol} {x : Identifier}

theorem unary_name (depth : Nat) (h : Left names c s (.ident (symbol x.text) :: .punct .semicolon ::
      kinds) (room + 1)) (hname : names.resolve (symbol x.text) = x.text) (f : ParseFault) :
    ReadsIf names c s (unary (depth + 1) false) (.punct .semicolon :: kinds) room True f
      (PrefixChain.Reads x []) := by
  have hbody : opensStructBody s.next.rest = false := by
    rw [opensStructBody, h.next.kinds]
  unfold ReadsIf unary prefixed
  rw [post_bind, post_current, h.front]
  dsimp only [prefixOp?]
  unfold primary
  rw [post_bind, post_bind, post_current, h.front]
  dsimp only [TokenKind.literal?]
  rw [post_bind, post_advance, post_bind, post_isAtStructBody, hbody, if_neg (by decide)]
  refine h.next.post_build (by simp [NodeKind.children]) ?_
  refine postfixChain_stop ?_ ⟨trivial, h.next.grow _, stands_grow ?_⟩
  · rw [(h.next.grow _).front]
    rfl
  · change NodeKind.ident (names.resolve (symbol x.text)) = _
    rw [hname]

/-- An ampersand before an operand that does not start with `mut`. -/
theorem unary_amp {next : TokenKind} {more : List TokenKind} {left : Nat} {A : Prop}
    {f : ParseFault} {P : Tree → Prop}
    (h : Left names c s (.punct .amp :: next :: more) left)
    (hnext : next ≠ .keyword .mutKw)
    (hread : ReadsIf names c s.next (unary depth false) kinds (room + 1) A f P) :
    ReadsIf names c s (unary (depth + 1) false) kinds room A f
      fun t => ∃ u, t.kind = .unary .ref u ∧ P u := by
  unfold ReadsIf unary prefixed
  rw [post_bind, post_current, h.front]
  dsimp only
  rw [post_bind, post_advance, post_bind]
  refine h.next.post_eat_other hnext ?_
  exact hread.operator .ref _

/-- A prefix of one token that is no ampersand. -/
theorem unary_sign {mark : Punct} {op : UnaryOp} {more : List TokenKind} {left : Nat} {A : Prop}
    {f : ParseFault} {P : Tree → Prop} (hop : prefixOp? (.punct mark) = some op)
    (h : Left names c s (.punct mark :: more) left)
    (hread : ReadsIf names c s.next (unary depth false) kinds (room + 1) A f P) :
    ReadsIf names c s (unary (depth + 1) false) kinds room A f
      fun t => ∃ u, t.kind = .unary op u ∧ P u := by
  unfold ReadsIf unary prefixed
  rw [post_bind, post_current, h.front]
  cases mark <;> cases hop
  all_goals
    dsimp only [prefixOp?]
    rw [post_bind, post_advance]
    exact hread.operator _ _

def ChainRead (names : Interner) (c : ParseSettings) (symbol : String → Symbol) (x : Identifier)
    (kinds : List TokenKind) (pending : Bool) (ops : List UnaryOp) : Prop :=
  ∀ s room depth, (PrefixChain.pendingOps pending ++ ops).length < depth →
    Left names c s ((PrefixChain.tokens x pending ops).map (SourceToken.kind symbol) ++
      .punct .semicolon :: kinds) (room + (PrefixChain.pendingOps pending ++ ops).length + 1) →
    ReadsIf names c s (unary depth false) (.punct .semicolon :: kinds) room
      (PrefixChain.EvenRefs pending ops) (.expected "expression" (.keyword .mutKw))
      (PrefixChain.Reads x (PrefixChain.pendingOps pending ++ ops))

section

open PrefixChain

variable {ops : List UnaryOp}

theorem ChainRead.behind (h : ChainRead names c symbol x kinds false ops)
    (href : ops.head? ≠ some .ref) (hmut : ops.head? ≠ some .refMut) :
    ChainRead names c symbol x kinds true ops := by
  intro s room depth hdepth hleft
  obtain ⟨depth, rfl⟩ := Nat.exists_eq_add_one.mpr (Nat.zero_lt_of_lt hdepth)
  obtain ⟨first, more, hfirst, hpending, hother⟩ := tokens_behind x href hmut
  have hroom : room + (ops.length + 1) + 1 = room + 1 + ops.length + 1 := by omega
  have hamp : Left names c s (.punct .amp :: first.kind symbol ::
      (more.map (SourceToken.kind symbol) ++ .punct .semicolon :: kinds))
      (room + 1 + ops.length + 1) := by
    rw [hpending] at hleft
    exact hroom ▸ hleft
  have hnext := hamp.next
  rw [← List.cons_append, ← List.map_cons, ← hfirst] at hnext
  have hread := h s.next (room + 1) depth (Nat.lt_of_succ_lt_succ hdepth) hnext
  exact unary_amp hamp (hother symbol) (hread.congr (evenRefs_behind href hmut).symm)

/-- A sign other than an ampersand is read before the operators behind it. -/
theorem ChainRead.sign (h : ChainRead names c symbol x kinds false ops) (mark : Punct)
    {op : UnaryOp} (hop : prefixOp? (.punct mark) = some op) (pending : Bool) :
    ChainRead names c symbol x kinds pending (op :: ops) := by
  have hplain : ChainRead names c symbol x kinds false (op :: ops) := by
    intro s room depth hdepth hleft
    obtain ⟨depth, rfl⟩ := Nat.exists_eq_add_one.mpr (Nat.zero_lt_of_lt hdepth)
    have hroom : room + (ops.length + 1) + 1 = room + 1 + ops.length + 1 := by omega
    have htokens : tokens x false (op :: ops) = .punct mark :: tokens x false ops := by
      cases mark <;> cases hop <;> rfl
    have heven : EvenRefs false ops ↔ EvenRefs false (op :: ops) := by
      cases mark <;> cases hop <;> exact Iff.rfl
    have hsign : Left names c s (.punct mark :: ((tokens x false ops).map
        (SourceToken.kind symbol) ++ .punct .semicolon :: kinds)) (room + 1 + ops.length + 1) := by
      rw [htokens] at hleft
      exact hroom ▸ hleft
    have hread := h s.next (room + 1) depth (Nat.lt_of_succ_lt_succ hdepth) hsign.next
    exact unary_sign hop hsign (hread.congr heven)
  cases pending with
  | false => exact hplain
  | true =>
    apply hplain.behind
    · cases mark <;> cases hop <;> simp
    · cases mark <;> cases hop <;> simp

/-- Two ampersands in one token are two references. -/
theorem ChainRead.fused (h : ChainRead names c symbol x kinds false ops) :
    ChainRead names c symbol x kinds true (.ref :: ops) := by
  intro s room depth hdepth hleft
  obtain ⟨depth, rfl⟩ := Nat.exists_eq_add_one.mpr (Nat.zero_lt_of_lt hdepth)
  have hroom : room + (ops.length + 2) + 1 = room + 2 + ops.length + 1 := by omega
  have hand : Left names c s (.punct .andAnd :: ((tokens x false ops).map
      (SourceToken.kind symbol) ++ .punct .semicolon :: kinds)) (room + 2 + ops.length + 1) :=
    hroom ▸ hleft
  have hread := h s.next (room + 2) depth (by simp [pendingOps] at hdepth ⊢; omega) hand.next
  unfold ReadsIf unary prefixed
  rw [post_bind, post_current, hand.front]
  dsimp only
  rw [post_bind, post_advance, post_bind, post_current]
  exact (hread.operator .ref _).operator .ref _

theorem ChainRead.mutable (h : ChainRead names c symbol x kinds false ops) :
    ChainRead names c symbol x kinds false (.refMut :: ops) := by
  intro s room depth hdepth hleft
  obtain ⟨depth, rfl⟩ := Nat.exists_eq_add_one.mpr (Nat.zero_lt_of_lt hdepth)
  have hroom : room + (ops.length + 1) + 1 = room + 1 + ops.length + 1 := by omega
  have hamp : Left names c s (.punct .amp :: .keyword .mutKw :: ((tokens x false ops).map
      (SourceToken.kind symbol) ++ .punct .semicolon :: kinds)) (room + 1 + ops.length + 1) :=
    hroom ▸ hleft
  have hread := h s.next.next (room + 1) depth (Nat.lt_of_succ_lt_succ hdepth) hamp.next.next
  unfold ReadsIf unary prefixed
  rw [post_bind, post_current, hamp.front]
  dsimp only
  rw [post_bind, post_advance, post_bind]
  refine hamp.next.post_eat ?_
  exact (hread.congr (and_iff_right rfl).symm).operator .refMut _

/-- The keyword behind two ampersands is taken for an operand. -/
theorem chainRead_clash (hstrict : c.mode = .strict) :
    ChainRead names c symbol x kinds true (.refMut :: ops) := by
  intro s room depth hdepth hleft
  obtain ⟨depth, rfl⟩ : ∃ n, depth = n + 2 :=
    ⟨depth - 2, by simp [pendingOps] at hdepth; omega⟩
  have hmut : Left names c s.next (.keyword .mutKw :: _) _ := Left.next hleft
  unfold ReadsIf unary prefixed
  rw [post_bind, post_current, Left.front hleft]
  dsimp only [SourceToken.kind]
  rw [post_bind, post_advance, post_bind, post_current, post_bind]
  unfold applyPrefix unary prefixed
  rw [post_bind, post_bind, post_current, hmut.front]
  dsimp only [prefixOp?]
  unfold primary
  rw [post_bind, post_bind, post_current, hmut.front]
  dsimp only [TokenKind.literal?, Keyword.truth?, Option.map_none]
  rw [post_bind, post_fault_strict hstrict]
  exact ⟨fun heven => Bool.noConfusion heven.1, _, _, rfl⟩

end

/-- Operators are read one by one, by induction on their list. -/
theorem chain_compact (hstrict : c.mode = .strict) (hname : names.resolve (symbol x.text) = x.text)
    (pending : Bool) (ops : List UnaryOp) : ChainRead names c symbol x kinds pending ops := by
  induction ops generalizing pending with
  | nil =>
    have hplain : ChainRead names c symbol x kinds false [] := by
      intro s room depth hdepth hleft
      obtain ⟨depth, rfl⟩ := Nat.exists_eq_add_one.mpr (Nat.zero_lt_of_lt hdepth)
      exact unary_name depth hleft hname _
    cases pending with
    | false => exact hplain
    | true => exact hplain.behind (by simp) (by simp)
  | cons op ops ih =>
    cases op with
    | not => exact (ih false).sign .bang rfl pending
    | neg => exact (ih false).sign .minus rfl pending
    | deref => exact (ih false).sign .star rfl pending
    | ref =>
      -- Its ampersand waits for the next operator unless one is waiting already.
      cases pending with
      | false => exact ih true
      | true => exact (ih false).fused
    | refMut =>
      cases pending with
      | false => exact (ih false).mutable
      | true => exact chainRead_clash hstrict

end

/-! ### Declarations -/

section

variable {names : Interner} {c : ParseSettings} {s : ParseState} {room depth : Nat} {A : Prop}
  {f : ParseFault} {P : Tree → Prop} {block conditional : Parser Built}

theorem stmt_let {sym : Symbol} {more : List TokenKind} {left : Nat}
    {Q : Built → ParseState → Prop} {E : Diagnostics → Prop}
    (h : Left names c s (.keyword .letKw :: .ident sym :: more) left)
    (hrest : ∀ start : Span, (do
      let ty ← after (.punct .colon) (type depth)
      let init ← after (.punct .eq) (expr depth false)
      let close ← expect (.punct .semicolon)
      build (.letStmt sym false (ty.map (·.id)) (init.map (·.id))) (start.to close) :
        Parser Built).Post c s.next.next Q E) :
    (stmt depth block conditional).Post c s Q E := by
  unfold stmt
  rw [post_bind, post_current, h.front]
  dsimp only
  unfold letStmt
  rw [post_bind]
  refine h.post_expect fun start => ?_
  rw [post_bind]
  refine h.next.post_eat_other (by simp) ?_
  rw [post_bind]
  exact h.next.post_expectIdent fun _ => hrest start

theorem let_close {node : NodeKind Symbol NodeId} {start : Span} {id : NodeId} {P' : Tree → Prop}
    (ha : A) (hs : Left names c s [.punct .semicolon, .punct .rbrace] (room + 1))
    (hid : Stands names s id P) (hwidth : node.children.length ≤ 2)
    (hnode : ∀ (child : NodeId → Tree) span, P (child id) →
      P' (.node (node.map names.resolve child) span)) :
    ReadsIf names c s
      (do let close ← expect (.punct .semicolon); build node (start.to close))
      [.punct .rbrace] room A f P' := by
  have hlater : Grown names s s.next := .of_arena s.next_arena
  unfold ReadsIf
  rw [post_bind]
  refine hs.post_expect fun close => ?_
  exact hs.next.post_build hwidth
    ⟨ha, hs.next.grow _, stands_grow (hnode _ _ (hid.later hlater).lookup)⟩

/-- A declaration with a type comes back if the type does. -/
theorem stmt_annotated {sym : Symbol} {more : List TokenKind} {left : Nat}
    (h : Left names c s (.keyword .letKw :: .ident sym :: .punct .colon :: more) left)
    (hname : names.resolve sym = plainName.text)
    (hread : ReadsIf names c s.next.next.next (type depth) [.punct .semicolon, .punct .rbrace]
      (room + 1) A f P) :
    ReadsIf names c s (stmt depth block conditional) [.punct .rbrace] room A f
      (Tree.Annotated P) := by
  refine stmt_let h fun start => ?_
  unfold after
  rw [post_bind, post_bind]
  refine h.next.next.post_eat ?_
  rw [if_pos rfl, post_bind]
  refine Post.imp hread ?_
  rintro ty s1 ⟨ha, hs1, hty⟩
  rw [post_pure, post_bind, post_bind]
  refine hs1.post_eat_other (by simp) ?_
  rw [if_neg (by decide), post_pure]
  refine let_close ha hs1 hty (by simp [NodeKind.children]) fun child span hchild => ?_
  exact ⟨_, span, hchild, by rw [← hname]; rfl⟩

/-- A declaration with a value comes back if the value does. -/
theorem stmt_initialized {sym : Symbol} {more : List TokenKind} {left : Nat}
    (h : Left names c s (.keyword .letKw :: .ident sym :: .punct .eq :: more) left)
    (hname : names.resolve sym = plainName.text)
    (hread : ReadsIf names c s.next.next.next (unary depth false)
      [.punct .semicolon, .punct .rbrace] (room + 1) A f P) :
    ReadsIf names c s (stmt depth block conditional) [.punct .rbrace] room A f
      (Tree.Initialized P) := by
  refine stmt_let h fun start => ?_
  unfold after
  rw [post_bind, post_bind]
  refine h.next.next.post_eat_other (by simp) ?_
  rw [if_neg (by decide), post_pure, post_bind, post_bind]
  refine h.next.next.post_eat ?_
  unfold expr
  rw [if_pos rfl, post_bind, post_bind]
  refine Post.imp hread ?_
  rintro init s1 ⟨ha, hs1, hinit⟩
  refine infixChain_stop (stopsBelow_of_none (by rw [hs1.front]; rfl)) ?_
  rw [post_pure]
  refine let_close ha hs1 hinit (by simp [NodeKind.children]) fun child span hchild => ?_
  exact ⟨_, span, hchild, by rw [← hname]; rfl⟩

end

end Parser

/-! ### Sources -/

def letKinds (symbol : String → Symbol) (mark : Punct) (tokens : List SourceToken) :
    List TokenKind :=
  .keyword .letKw :: .ident (symbol plainName.text) :: .punct mark ::
    (tokens.map (SourceToken.kind symbol) ++ [TokenKind.punct .semicolon, .punct .rbrace])

theorem kinds_letTokens (symbol : String → Symbol) (mark : Punct) (tokens : List SourceToken) :
    (letTokens mark tokens).map (SourceToken.kind symbol) =
      Parser.soleHead (symbol plainName.text) ++ letKinds symbol mark tokens := by
  simp only [letTokens, letKinds, List.map_cons, List.map_append]
  rfl

/-- Limits that no source of the given size exceeds. -/
structure Limits.Ample (l : Limits) (size : Nat) : Prop where
  tokens : size < l.clamped.maxTokens
  nodes : size ≤ l.clamped.maxNodes
  depth : size ≤ l.maxDepth
  width : 2 ≤ l.maxChildren

/-- The limits that hold where none are given are enough for a short source. -/
theorem Limits.ample_default {size : Nat} (h : size ≤ 256) :
    ({} : Options).limits.Ample size := by
  have htokens : ({} : Options).limits.clamped.maxTokens = 1048576 := by decide
  have hnodes : ({} : Options).limits.clamped.maxNodes = 1048576 := by decide
  exact ⟨by omega, by omega, h, by decide⟩

def ComesBack (src : String) (opts : Options) (P : Tree → Prop) : Prop :=
  ∃ parsed, parseSource src (opts.inMode .strict) = .ok parsed ∧ parsed.ast.tree.SoleStatement P

def Refused (src : String) (opts : Options) (message : String) : Prop :=
  ∃ span, parseSource src (opts.inMode .strict) = .error #[⟨.parse, message, some span⟩]

theorem ComesBack.not_refused {src message : String} {opts : Options} {P : Tree → Prop}
    (h : ComesBack src opts P) : ¬Refused src opts message := by
  obtain ⟨parsed, hparsed, -⟩ := h
  rintro ⟨span, hrefused⟩
  cases hparsed.symm.trans hrefused

theorem utf8ByteSize_letSource (mark : Punct) (text : String) :
    (letSource mark text).utf8ByteSize =
      14 + mark.spelling.utf8ByteSize + text.utf8ByteSize := by
  simp only [letSource, String.utf8ByteSize_append]
  rw [show "fn f()\x7blet f".utf8ByteSize = 12 from rfl, show ";\x7d".utf8ByteSize = 2 from rfl]
  omega

section

variable {opts : Options} {mark : Punct} {text : String} {tokens : List SourceToken}
  {A : Prop} {f : ParseFault} {P : Tree → Prop}

/-- A strict run over a clean stream ends with its first report. -/
theorem strict_error_sole {src : String} {lexed : Lexed} {before : Diagnostics} {d : Diagnostic}
    (hlex : lex src opts.limits = .ok lexed) (hclean : lexed.diagnostics = #[])
    (h : parseSource src (opts.inMode .strict) = .error (before.push d)) : before = #[] := by
  cases parseSource_inStep opts hlex hclean with
  | same parsed _ hok _ => cases hok.symm.trans h
  | stopped first later _ hstopped =>
    have hpush := Except.error.inj (hstopped.symm.trans h)
    have hsize := congrArg Array.size hpush
    rw [Array.size_push, Array.size_push] at hsize
    exact Array.eq_empty_of_size_eq_zero (Nat.succ.inj hsize).symm

/-- A source of one declaration is read as the declaration is. -/
theorem parseSource_let (room : Nat)
    (hglued : Glued (letTokens mark tokens) (Text.bytes (letSource mark text)))
    (hample : opts.limits.Ample (letSource mark text).utf8ByteSize)
    (hroom : room ≤ (letSource mark text).utf8ByteSize)
    (hstmt : ∀ (names : Interner) (c : ParseSettings) (symbol : String → Symbol) (depth : Nat)
      (s : ParseState), c.mode = .strict → opts.limits.maxDepth = depth + 1 →
      (∀ name, .ident name ∈ letTokens mark tokens → names.resolve (symbol name.text) = name.text) →
      Parser.Left names c s (letKinds symbol mark tokens) room →
      Parser.ReadsIf names c s (Parser.stmt depth (Parser.block depth) (Parser.conditional depth))
        [.punct .rbrace] 3 A f P) :
    (ComesBack (letSource mark text) opts P ↔ A) ∧
      (Refused (letSource mark text) opts f.message ↔ ¬A) := by
  obtain ⟨lexed, symbol, hlex, hclean, hkinds, hnames⟩ := hglued.lex hample.tokens
  have hknown : ∀ name, .ident name ∈ letTokens mark tokens →
      lexed.names.resolve (symbol name.text) = name.text := by
    intro name hname
    rw [Interner.resolve, hnames name.text (List.mem_filterMap.mpr ⟨_, hname, rfl⟩),
      Option.getD_some]
  obtain ⟨depth, hmax⟩ : ∃ n, opts.limits.maxDepth = n + 1 := by
    have hdepth := hample.depth
    have hsize := utf8ByteSize_letSource mark text
    exact ⟨opts.limits.maxDepth - 1, by omega⟩
  have hsole : Parser.ReadsSole lexed.names (.ofStream lexed (opts.inMode .strict)) depth
      (letKinds symbol mark tokens) room 3 (fun t => A ∧ P t) fun ds => ¬A ∧ f.Ends ds := by
    intro s hs
    refine Parser.Post.imp (hstmt _ _ _ _ s rfl hmax hknown hs) ?_
    rintro b s1 ⟨ha, hs1, hb⟩
    exact ⟨hs1, hb.imp fun _ ht => ⟨ha, ht⟩⟩
  rw [kinds_letTokens] at hkinds
  have hstrict : lex (letSource mark text) (opts.inMode .strict).limits = .ok lexed := hlex
  rcases parseSource_sole hstrict hclean hkinds hmax hample.width
    (Nat.le_trans hroom hample.nodes) (List.cons_ne_nil _ _) (by simp) hsole with
    ⟨parsed, hparsed, name, body, span, span', ⟨stmt, span'', ⟨ha, hp⟩, rfl⟩, htree⟩ |
      ⟨ds, hds, hno, before, span, rfl⟩
  · have hback : ComesBack (letSource mark text) opts P :=
      ⟨parsed, hparsed, name, _, span, span', ⟨stmt, span'', hp, rfl⟩, htree⟩
    exact ⟨iff_of_true hback ha, iff_of_false hback.not_refused (not_not_intro ha)⟩
  · rw [strict_error_sole hlex hclean hds] at hds
    have hrefused : Refused (letSource mark text) opts f.message := ⟨span, hds⟩
    exact ⟨iff_of_false (fun hback => hback.not_refused hrefused) hno, iff_of_true hrefused hno⟩

end

theorem Identifier.utf8ByteSize_pos (x : Identifier) : 0 < x.text.utf8ByteSize := by
  obtain ⟨b, more, hbytes, -, -⟩ := mem_words.mpr x.shape
  rw [← length_bytes, hbytes]
  exact Nat.succ_pos _

/-- A type has no more nodes than bytes. -/
theorem TypeTree.size_le_text (ty : TypeTree) : ty.size ≤ ty.text.utf8ByteSize := by
  induction ty with
  | prim p => exact p.identifier.utf8ByteSize_pos
  | custom name other => exact name.utf8ByteSize_pos
  | array elem len small ih =>
    have hopen : "[".utf8ByteSize = 1 := rfl
    simp only [size, text, String.utf8ByteSize_append]
    omega
  | ref mutable inner ih =>
    have hamp : "&".utf8ByteSize = 1 := rfl
    have hmut : "&mut ".utf8ByteSize = 5 := rfl
    cases mutable <;> simp only [size, text, String.utf8ByteSize_append] <;> omega

theorem PrefixChain.length_lt_text (x : Identifier) (ops : List UnaryOp) :
    ops.length < (text x ops).utf8ByteSize := by
  induction ops with
  | nil => exact x.utf8ByteSize_pos
  | cons op ops ih =>
    have hmark : 0 < op.mark.utf8ByteSize := by cases op <;> decide
    simp only [text, String.utf8ByteSize_append, List.length_cons]
    omega

/-- A type comes back exactly if no `&` stands directly before a reference. -/
theorem parseSource_annotated (ty : TypeTree) {opts : Options}
    (hample : opts.limits.Ample (letSource .colon ty.text).utf8ByteSize) :
    (ComesBack (letSource .colon ty.text) opts (Tree.Annotated ty.Reads) ↔ ty.Spaced) ∧
      (Refused (letSource .colon ty.text) opts "expected type, found `&&`" ↔ ¬ty.Spaced) := by
  have hsize := ty.size_le_text
  have hsource := utf8ByteSize_letSource .colon ty.text
  have hdepth := hample.depth
  have hmessage : (ParseFault.expected "type" (.punct .andAnd)).message =
      "expected type, found `&&`" := rfl
  have hglued : Glued (letTokens .colon (ty.tokens false))
      (Text.bytes (letSource .colon ty.text)) :=
    .letSource (by decide) (fun b hb => (ty.head_text _ b hb).imp_right And.left) (ty.glued false)
  rw [← hmessage]
  refine parseSource_let (3 + 1 + ty.size) hglued hample (by omega) ?_
  intro names c symbol depth s hstrict hmax hknown hs
  refine Parser.stmt_annotated hs (hknown plainName (by simp [letTokens])) ?_
  refine Parser.type_compact hstrict ty (by omega) (fun name hname => hknown name ?_)
    hs.next.next.next
  simp [letTokens, hname]

/-- Operators come back exactly if every `&mut` follows an even number of `&`. -/
theorem parseSource_initialized (x : Identifier) (ops : List UnaryOp) {opts : Options}
    (hample : opts.limits.Ample (letSource .eq (PrefixChain.text x ops)).utf8ByteSize) :
    (ComesBack (letSource .eq (PrefixChain.text x ops)) opts
        (Tree.Initialized (PrefixChain.Reads x ops)) ↔ PrefixChain.EvenRefs false ops) ∧
      (Refused (letSource .eq (PrefixChain.text x ops)) opts "expected expression, found `mut`" ↔
        ¬PrefixChain.EvenRefs false ops) := by
  have hsize := PrefixChain.length_lt_text x ops
  have hsource := utf8ByteSize_letSource .eq (PrefixChain.text x ops)
  have hdepth := hample.depth
  have hmessage : (ParseFault.expected "expression" (.keyword .mutKw)).message =
      "expected expression, found `mut`" := rfl
  have hglued : Glued (letTokens .eq (PrefixChain.tokens x false ops))
      (Text.bytes (letSource .eq (PrefixChain.text x ops))) :=
    .letSource (by decide) (PrefixChain.head_text x ops _) (PrefixChain.glued false x ops)
  have hname := PrefixChain.name_mem_tokens x false ops
  rw [← hmessage]
  refine parseSource_let (3 + 1 + ops.length + 1) hglued hample (by omega) ?_
  intro names c symbol depth s hstrict hmax hknown hs
  refine Parser.stmt_initialized hs (hknown plainName (by simp [letTokens])) ?_
  refine Parser.chain_compact hstrict (hknown x ?_) false ops _ _ _ ?_ hs.next.next.next
  · simp [letTokens, hname]
  · change ops.length < depth
    omega

/-- A type comes back from its compact text unless an `&` stands directly before
another reference, and a chain of prefix operators unless a `&mut` stands behind
an odd number of `&`. Those that do not are refused for the token that was met
instead. -/
theorem compact_text_round_trip (opts : Options) :
    (∀ ty : TypeTree, opts.limits.Ample (letSource .colon ty.text).utf8ByteSize →
      (ComesBack (letSource .colon ty.text) opts (Tree.Annotated ty.Reads) ↔ ty.Spaced) ∧
      (Refused (letSource .colon ty.text) opts "expected type, found `&&`" ↔ ¬ty.Spaced)) ∧
    ∀ (x : Identifier) (ops : List UnaryOp),
      opts.limits.Ample (letSource .eq (PrefixChain.text x ops)).utf8ByteSize →
      (ComesBack (letSource .eq (PrefixChain.text x ops)) opts
        (Tree.Initialized (PrefixChain.Reads x ops)) ↔ PrefixChain.EvenRefs false ops) ∧
      (Refused (letSource .eq (PrefixChain.text x ops)) opts "expected expression, found `mut`" ↔
        ¬PrefixChain.EvenRefs false ops) :=
  ⟨fun ty hample => parseSource_annotated ty hample,
    fun x ops hample => parseSource_initialized x ops hample⟩

def sampleType : TypeTree :=
  .ref true (.ref false (.array (.ref true (.custom plainName plainName_other)) 9223372036854775807
    (Nat.lt_succ_self _)))

theorem compact_text_round_trip_sample :
    ComesBack "fn f()\x7blet f:&mut &[&mut f;9223372036854775807];\x7d" {}
        (Tree.Annotated sampleType.Reads) ∧
      ComesBack "fn f()\x7blet f=!&&&mut *-f;\x7d" {} (Tree.Initialized (PrefixChain.Reads plainName
        [.not, .ref, .ref, .refMut, .deref, .neg])) := by
  have htype : letSource .colon sampleType.text =
      "fn f()\x7blet f:&mut &[&mut f;9223372036854775807];\x7d" := by decide +kernel
  have hchain : letSource .eq (PrefixChain.text plainName
      [.not, .ref, .ref, .refMut, .deref, .neg]) = "fn f()\x7blet f=!&&&mut *-f;\x7d" := by
    decide +kernel
  rw [← htype, ← hchain]
  constructor
  · refine ((compact_text_round_trip {}).1 sampleType (Limits.ample_default ?_)).1.mpr ?_
    · rw [htype]
      decide
    · simp [sampleType, TypeTree.Spaced, TypeTree.isRef]
  · refine ((compact_text_round_trip {}).2 plainName _ (Limits.ample_default ?_)).1.mpr ?_
    · rw [hchain]
      decide
    · simp [PrefixChain.EvenRefs]

/-- Neither a reference to a reference nor one to a mutable reference comes back. -/
theorem double_ampersand_lost :
    ¬ComesBack "fn f()\x7blet f:&&i64;\x7d" {}
        (Tree.Annotated (TypeTree.ref false (.ref false (.prim .i64))).Reads) ∧
      ¬ComesBack "fn f()\x7blet f=&&mut f;\x7d" {}
        (Tree.Initialized (PrefixChain.Reads plainName [.ref, .refMut])) := by
  have htype : letSource .colon (TypeTree.ref false (.ref false (.prim .i64))).text =
      "fn f()\x7blet f:&&i64;\x7d" := by decide +kernel
  have hchain : letSource .eq (PrefixChain.text plainName [.ref, .refMut]) =
      "fn f()\x7blet f=&&mut f;\x7d" := by decide +kernel
  rw [← htype, ← hchain]
  constructor
  · rw [(parseSource_annotated _ (Limits.ample_default ?_)).1]
    · simp [TypeTree.Spaced, TypeTree.isRef]
    · rw [htype]
      decide
  · rw [(parseSource_initialized _ _ (Limits.ample_default ?_)).1]
    · simp [PrefixChain.EvenRefs]
    · rw [hchain]
      decide

end StagedCompiler
