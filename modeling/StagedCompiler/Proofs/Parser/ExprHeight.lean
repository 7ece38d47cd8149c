import StagedCompiler.Proofs.Parser.EveryReader
import StagedCompiler.Proofs.Tree.ParsedShape

/-!
How high expressions get. The depth limit counts the links of a chain only
while the chain is read, so an operand that is itself a chain starts counting
anew: with `n` levels left an expression is at most `n * n` nodes high. Paths
through a whole unit are bounded by the number of its nodes, too.
-/

namespace StagedCompiler

namespace Tree

inductive Inside : Tree → Tree → Prop
  | self (t : Tree) : Inside t t
  | child {kind : NodeKind String Tree} {span : Span} {t u : Tree} :
      t ∈ kind.children → Inside t u → Inside (.node kind span) u

/-- A chain of `n` nested expressions, each a child of the one before, that
starts with the tree. -/
inductive Chain : Tree → Nat → Prop
  | one {kind : NodeKind String Tree} {span : Span} :
      kind.isExpr = true → Chain (.node kind span) 1
  | more {kind : NodeKind String Tree} {span : Span} {t : Tree} {n : Nat} :
      kind.isExpr = true → t ∈ kind.children → Chain t n → Chain (.node kind span) (n + 1)

def HasChain (t : Tree) (n : Nat) : Prop :=
  ∃ u, t.Inside u ∧ u.Chain n

/-- A way of `n` nodes from the tree down to an expression. -/
inductive Path : Tree → Nat → Prop
  | one {kind : NodeKind String Tree} {span : Span} :
      kind.isExpr = true → Path (.node kind span) 1
  | more {kind : NodeKind String Tree} {span : Span} {t : Tree} {n : Nat} :
      t ∈ kind.children → Path t n → Path (.node kind span) (n + 1)

/-- No chain in the tree is longer than `h`. -/
def Low (h : Nat) (t : Tree) : Prop :=
  ∀ u n, t.Inside u → u.Chain n → n ≤ h

/-- Every chain in the tree stands below at least `k` further nodes of it. -/
def Deep (k : Nat) (t : Tree) : Prop :=
  ∀ u n, t.Inside u → u.Chain n → ∃ m, n + k ≤ m ∧ t.Path m

section

variable {kind : NodeKind String Tree} {span : Span} {t u : Tree} {h h' k n m : Nat}

theorem Low.mono (hl : Low h t) (hh : h ≤ h') : Low h' t :=
  fun u n hu hn => Nat.le_trans (hl u n hu hn) hh

theorem low_node (hc : ∀ t ∈ kind.children, Low h t) : Low (h + 1) (.node kind span) := by
  intro u n hu hn
  cases hu with
  | self =>
    cases hn with
    | one _ => omega
    | more _ ht hn =>
      have hle := hc _ ht _ _ (.self _) hn
      omega
  | child ht hu =>
    have hle := hc _ ht u n hu hn
    omega

theorem not_chain (hk : kind.isExpr = false) : ¬ Chain (.node kind span) n := by
  intro hn
  cases hn with
  | one hexpr => simp [hk] at hexpr
  | more hexpr _ _ => simp [hk] at hexpr

theorem low_other (hk : kind.isExpr = false) (hc : ∀ t ∈ kind.children, Low h t) :
    Low h (.node kind span) := by
  intro u n hu hn
  cases hu with
  | self => exact absurd hn (not_chain hk)
  | child ht hu => exact hc _ ht u n hu hn

theorem Chain.path (hn : t.Chain n) : t.Path n := by
  induction hn with
  | one hexpr => exact .one hexpr
  | more _ ht _ ih => exact .more ht ih

theorem Chain.pos (hn : t.Chain n) : 0 < n := by
  cases hn <;> omega

theorem Path.above (hu : t.Inside u) (hn : u.Path n) : ∃ m, n ≤ m ∧ t.Path m := by
  induction hu with
  | self t => exact ⟨n, Nat.le_refl n, hn⟩
  | child ht _ ih =>
    obtain ⟨m, hle, hm⟩ := ih hn
    exact ⟨m + 1, by omega, .more ht hm⟩

theorem not_path_empty : ¬ Path .empty n := by
  intro hn
  cases hn with
  | one hexpr => cases hexpr
  | more hnone _ => cases hnone

theorem deep_zero (t : Tree) : Deep 0 t :=
  fun _ _ hu hn => hn.path.above hu

theorem Deep.mono (hd : Deep k t) (hm : m ≤ k) : Deep m t := by
  intro u n hu hn
  obtain ⟨l, hle, hl⟩ := hd u n hu hn
  exact ⟨l, by omega, hl⟩

theorem deep_other (hk : kind.isExpr = false) (hc : ∀ t ∈ kind.children, Deep k t) :
    Deep (k + 1) (.node kind span) := by
  intro u n hu hn
  cases hu with
  | self => exact absurd hn (not_chain hk)
  | child ht hu =>
    obtain ⟨l, hle, hl⟩ := hc _ ht u n hu hn
    exact ⟨l + 1, by omega, .more ht hl⟩

/-- Where there are no chains, they stand as deep as one likes. -/
theorem Low.deep (hl : Low 0 t) (k : Nat) : Deep k t := by
  intro u n hu hn
  have hle := hl u n hu hn
  have hpos := hn.pos
  omega

end

end Tree

namespace Shape

open StagedCompiler.Tree

theorem low_of_type {n : Nat} {t : Tree} (h : TypeAt n t) : Low 0 t := by
  induction h with
  | prim _ _ => exact low_other rfl (by simp [NodeKind.children])
  | named _ _ => exact low_other rfl (by simp [NodeKind.children])
  | array _ _ _ ih => exact low_other rfl (by simpa [NodeKind.children] using ih)
  | ref _ _ _ ih => exact low_other rfl (by simpa [NodeKind.children] using ih)

theorem succ_mul_self (n : Nat) : (n + 1) * (n + 1) = n * n + 2 * n + 1 := by
  rw [Nat.add_mul, Nat.mul_add]
  omega

theorem square_pred_le (n : Nat) : (n - 1) * (n - 1) ≤ n * n :=
  Nat.mul_le_mul (Nat.sub_le n 1) (Nat.sub_le n 1)

/-! Operands grow by at most two for a prefix, by the square of a nested
expression and by one for each link; `n * n + n + 1` is what that sums up to. -/

mutual

/-- Chains in an operand are bounded by the levels that its reader had. -/
theorem low_of_operand {n : Nat} {t : Tree} (h : Operand n t) :
    ∃ j, n = j + 1 ∧ Low (j * j + j + 1) t := by
  match h with
  | .unary op span hx =>
    obtain ⟨j, rfl, hlow⟩ := low_of_operand hx
    refine ⟨j + 1, rfl, (low_node (h := j * j + j + 1) ?_).mono ?_⟩
    · simpa [NodeKind.children] using hlow
    · rw [succ_mul_self]
      omega
  | .refRef inner outer hx =>
    obtain ⟨j, rfl, hlow⟩ := low_of_operand hx
    refine ⟨j + 1, rfl, (low_node (h := j * j + j + 2) ?_).mono ?_⟩
    · have hinner : Low (j * j + j + 2) (.node (.unary .ref _) inner) :=
        low_node (by simpa [NodeKind.children] using hlow)
      simpa [NodeKind.children] using hinner
    · rw [succ_mul_self]
      omega
  | .bare hbase =>
    obtain ⟨hle, hlow⟩ := low_of_postfixed hbase
    exact ⟨_, rfl, hlow.mono (by omega)⟩

theorem low_of_primary {n : Nat} {t : Tree} (h : Primary n t) : Low (n * n + 1) t := by
  match h with
  | .atom span hatom =>
    refine (low_node (h := 0) ?_).mono (by omega)
    simp [NodeKind.children_of_isAtom hatom]
  | .group ht => exact (low_of_expr ht).2.mono (by omega)
  | .array span helems =>
    refine low_node fun t ht => ?_
    exact (low_of_expr (helems t (by simpa [NodeKind.children] using ht))).2
  | .struct name span hfields =>
    refine low_node fun t ht => ?_
    obtain ⟨f, hf, rfl⟩ := List.mem_map.mp ht
    exact (low_of_expr (hfields f hf)).2

/-- Each link of a postfix chain takes a level and makes its chains one longer. -/
theorem low_of_postfixed {n m : Nat} {t : Tree} (h : Postfixed n m t) :
    m ≤ n ∧ Low (n * n + 1 + (n - m)) t := by
  match h with
  | .base ht => exact ⟨Nat.le_refl _, (low_of_primary ht).mono (by omega)⟩
  | .call span hcallee hargs =>
    obtain ⟨hle, hlow⟩ := low_of_postfixed hcallee
    have hsquare : m * m ≤ n * n := Nat.mul_le_mul (by omega) (by omega)
    refine ⟨by omega, (low_node (h := n * n + 1 + (n - (m + 1))) fun t ht => ?_).mono (by omega)⟩
    rcases List.mem_cons.mp ht with rfl | harg
    · exact hlow
    · exact (low_of_expr (hargs t harg)).2.mono (by omega)
  | .index span hbase hplace =>
    obtain ⟨hle, hlow⟩ := low_of_postfixed hbase
    have hsquare : m * m ≤ n * n := Nat.mul_le_mul (by omega) (by omega)
    have hright := (low_of_expr hplace).2.mono (show m * m ≤ n * n + 1 + (n - (m + 1)) by omega)
    refine ⟨by omega, (low_node (h := n * n + 1 + (n - (m + 1))) ?_).mono (by omega)⟩
    simp only [NodeKind.children, List.forall_mem_cons]
    exact ⟨hlow, hright, by simp⟩
  | .field name span hbase =>
    obtain ⟨hle, hlow⟩ := low_of_postfixed hbase
    refine ⟨by omega, (low_node (h := n * n + 1 + (n - (m + 1))) ?_).mono (by omega)⟩
    simpa [NodeKind.children] using hlow

theorem low_of_linked {n m : Nat} {t : Tree} (h : Linked n m t) :
    ∃ j, n = j + 1 ∧ m ≤ n ∧ 0 < m ∧ Low (j * j + j + 1 + (n - m)) t := by
  match h with
  | .first ht =>
    obtain ⟨j, rfl, hlow⟩ := low_of_operand ht
    exact ⟨j, rfl, Nat.le_refl _, by omega, hlow.mono (by omega)⟩
  | .link op span hlhs hrhs =>
    obtain ⟨j, rfl, hle, -, hlow⟩ := low_of_linked hlhs
    obtain ⟨hpos, hright⟩ := low_of_expr hrhs
    have hsquare : m * m ≤ j * j := Nat.mul_le_mul (by omega) (by omega)
    refine ⟨j, rfl, by omega, hpos,
      (low_node (h := j * j + j + 1 + (j + 1 - (m + 1))) ?_).mono (by omega)⟩
    simp only [InfixOp.children_node, List.forall_mem_cons]
    exact ⟨hlow, hright.mono (by omega), by simp⟩

theorem low_of_expr {n : Nat} {t : Tree} (h : Expr n t) : 0 < n ∧ Low (n * n) t := by
  match h with
  | .mk hlinked =>
    obtain ⟨j, rfl, hle, hpos, hlow⟩ := low_of_linked hlinked
    refine ⟨by omega, hlow.mono ?_⟩
    rw [succ_mul_self]
    omega

end

/-- What is known of the chains in a statement: their length, and how many
nodes stand above them. -/
structure Holds (h k : Nat) (t : Tree) : Prop where
  low : Low h t
  deep : Deep k t

section

variable {kind : NodeKind String Tree} {span : Span} {t : Tree} {n m h h' k k' : Nat}

theorem Holds.mono (ht : Holds h k t) (hh : h ≤ h') (hk : k' ≤ k) : Holds h' k' t :=
  ⟨ht.low.mono hh, ht.deep.mono hk⟩

theorem holds_of_expr (ht : Expr n t) : Holds (n * n) 0 t :=
  ⟨(low_of_expr ht).2, deep_zero t⟩

theorem holds_of_type (ht : TypeAt n t) (h k : Nat) : Holds h k t :=
  ⟨(low_of_type ht).mono (Nat.zero_le h), (low_of_type ht).deep k⟩

theorem holds_other (hk : kind.isExpr = false) (hc : ∀ t ∈ kind.children, Holds h k t) :
    Holds h (k + 1) (.node kind span) :=
  ⟨low_other hk fun t ht => (hc t ht).low, deep_other hk fun t ht => (hc t ht).deep⟩

end

mutual

/-- Chains in a statement are bounded by its levels and stand below it. -/
theorem holds_of_stmt {n : Nat} {t : Tree} (h : StmtAt n t) : Holds (n * n) 1 t := by
  match h with
  | .letStmt name mutable span htype hinit =>
    refine holds_other rfl fun t ht => ?_
    rcases List.mem_append.mp ht with ht | ht
    · exact holds_of_type (htype t (by simpa using ht)) _ _
    · exact holds_of_expr (hinit t (by simpa using ht))
  | .assign op span htarget hvalue =>
    refine holds_other rfl ?_
    simp only [NodeKind.children, List.forall_mem_cons]
    exact ⟨holds_of_expr htarget, holds_of_expr hvalue, by simp⟩
  | .returnStmt span hvalue =>
    refine holds_other rfl fun t ht => ?_
    exact holds_of_expr (hvalue t (by simpa [NodeKind.children] using ht))
  | .exprStmt span hexpr =>
    refine holds_other rfl ?_
    simpa [NodeKind.children] using holds_of_expr hexpr
  | .whileStmt span hcond hbody =>
    refine holds_other rfl ?_
    simp only [NodeKind.children, List.forall_mem_cons]
    exact ⟨holds_of_expr hcond, (holds_of_block hbody).mono (square_pred_le n) (by omega), by simp⟩
  | .forStmt var span hiter hbody =>
    refine holds_other rfl ?_
    simp only [NodeKind.children, List.forall_mem_cons]
    exact ⟨holds_of_expr hiter, (holds_of_block hbody).mono (square_pred_le n) (by omega), by simp⟩
  | .breakStmt span => exact holds_other rfl (by simp [NodeKind.children])
  | .continueStmt span => exact holds_other rfl (by simp [NodeKind.children])
  | .block hblock => exact (holds_of_block hblock).mono (square_pred_le n) (by omega)
  | .conditional hconditional =>
    exact (holds_of_conditional hconditional).mono (square_pred_le n) (Nat.le_refl 1)

theorem holds_of_block {n : Nat} {t : Tree} (h : BlockAt n t) :
    Holds ((n - 1) * (n - 1)) 2 t := by
  match h with
  | .mk span hstmts =>
    exact holds_other rfl fun t ht => holds_of_stmt (hstmts t ht)

theorem holds_of_conditional {n : Nat} {t : Tree} (h : ConditionalAt n t) :
    Holds ((n - 1) * (n - 1)) 1 t := by
  match h with
  | .mk span hcond hthen helse =>
    refine holds_other rfl ?_
    simp only [NodeKind.children, List.cons_append, List.nil_append, List.forall_mem_cons]
    refine ⟨holds_of_expr hcond, (holds_of_block hthen).mono (square_pred_le _) (by omega),
      fun t ht => ?_⟩
    match helse t (by simpa using ht) with
    | .block hblock => exact (holds_of_block hblock).mono (square_pred_le _) (by omega)
    | .conditional hconditional =>
      exact (holds_of_conditional hconditional).mono (square_pred_le _) (by omega)

end

theorem holds_of_item {n : Nat} {t : Tree} (h : ItemAt n t) : Holds ((n - 1) * (n - 1)) 3 t := by
  cases h with
  | function name isPublic span hparams hret hbody =>
    refine holds_other rfl fun t ht => ?_
    simp only [NodeKind.children, List.mem_append, List.mem_singleton, Option.mem_toList] at ht
    rcases ht with (ht | ht) | rfl
    · obtain ⟨pname, mutable, pspan, htype⟩ := hparams t ht
      exact holds_other rfl (by simpa [NodeKind.children] using holds_of_type htype _ _)
    · exact holds_of_type (hret t ht) _ _
    · exact holds_of_block hbody
  | struct name span hfields =>
    refine holds_other rfl fun t ht => ?_
    obtain ⟨fname, fspan, htype⟩ := hfields t ht
    exact holds_other rfl (by simpa [NodeKind.children] using holds_of_type htype _ _)
  | importPath path span => exact holds_other rfl (by simp [NodeKind.children])

/-- In a program read with `n` levels, the body of a function has one less. -/
theorem holds_of_program {n : Nat} {t : Tree} (h : ProgramAt n t) :
    Holds ((n - 1) * (n - 1)) 4 t := by
  obtain ⟨span, hitems⟩ := h
  exact holds_other rfl fun t ht => holds_of_item (hitems t ht)

end Shape

/-! ### Paths and the number of nodes -/

namespace Arena

/-- The children of a node's tree are trees of earlier nodes. -/
theorem child_of_trees (a : Arena) (names : Interner) {id : Nat} {t child : Tree}
    (ht : (a.trees names)[id]? = some t) (hchild : child ∈ t.kind.children) :
    child = .empty ∨ ∃ id' < id, (a.trees names)[id']? = some child := by
  let Earlier (_ : Nat) (trees : Array Tree) : Prop :=
    ∀ (id : Nat) (t child : Tree), trees[id]? = some t → child ∈ t.kind.children →
      child = .empty ∨ ∃ id' < id, trees[id']? = some child
  have hall : Earlier a.nodes.size (a.trees names) := by
    refine Array.foldl_induction Earlier (by intro id t child ht; simp at ht) ?_
    intro i trees hearlier id t child ht hchild
    rw [Array.getElem?_push] at ht
    split at ht
    · next hid =>
      cases ht
      simp only [Tree.kind, NodeKind.children_map, List.mem_map] at hchild
      obtain ⟨place, -, rfl⟩ := hchild
      by_cases hplace : place < trees.size
      · refine .inr ⟨place, by omega, ?_⟩
        rw [Array.getElem?_push_lt hplace]
        simp [Array.getD_eq_getD_getElem?, hplace]
      · exact .inl (by simp [Array.getD_eq_getD_getElem?, hplace])
    · next hid =>
      rcases hearlier id t child ht hchild with hempty | ⟨place, hlt, hplace⟩
      · exact .inl hempty
      · have hsize : place < trees.size := (Array.getElem?_eq_some_iff.mp hplace).1
        exact .inr ⟨place, hlt, by rw [Array.getElem?_push_lt hsize, ← hplace]; simp [hsize]⟩
  exact hall id t child ht hchild

/-- So no way down to an expression is longer than the place of its start. -/
theorem path_le {a : Arena} {names : Interner} {id n : Nat} {t : Tree}
    (ht : (a.trees names)[id]? = some t) (hn : t.Path n) : n ≤ id + 1 := by
  induction hn generalizing id with
  | one _ => omega
  | more hchild hn ih =>
    rcases a.child_of_trees names ht hchild with rfl | ⟨id', hlt, hchild'⟩
    · exact absurd hn Tree.not_path_empty
    · have hle := ih hchild'
      omega

/-- An arena that keeps to its limits. -/
structure Within (a : Arena) : Prop where
  size : a.size ≤ a.maxNodes
  children : ∀ n ∈ a.nodes, n.kind.children.length ≤ a.maxChildren

theorem Within.append {a : Arena} {kind : NodeKind Symbol NodeId} {span : Span} (h : a.Within)
    (hfits : a.refusal? kind = none) : (a.append ⟨kind, span⟩).Within := by
  obtain ⟨hchildren, hroom⟩ := (a.refusal?_eq_none kind).mp hfits
  constructor
  · simp only [Arena.size, Arena.append, Array.size_push]
    exact hroom
  · intro n hn
    rcases Array.mem_push.mp hn with hn | rfl
    · exact h.children n hn
    · exact hchildren

end Arena

namespace Parser

/-- A reader never fills an arena beyond its limits. -/
def Fits (α : Type) (p : Parser α) : Prop :=
  ∀ c s, s.arena.Within →
    p.Post c s (fun _ s' => s'.arena.Within ∧ s'.arena.maxNodes = s.arena.maxNodes ∧
      s'.arena.maxChildren = s.arena.maxChildren) fun _ => True

theorem fits_of_quiet {α : Type} {p : Parser α}
    (hp : ∀ c s, p.Post c s (fun _ s' => s'.arena = s.arena) fun _ => True) : Fits α p := by
  intro c s hs
  refine (hp c s).imp fun _ s' harena => ?_
  rw [harena]
  exact ⟨hs, rfl, rfl⟩

/-- Only building a node fills the arena, and it looks at the limits. -/
theorem fits_stepClosed : StepClosed Fits where
  pure a := fits_of_quiet fun _ _ => rfl
  bind hp hf := by
    intro c s hs
    rw [post_bind]
    refine (hp c s hs).imp fun a s1 ⟨hs1, hnodes1, hchildren1⟩ => ?_
    refine (hf a c s1 hs1).imp fun b s2 ⟨hs2, hnodes2, hchildren2⟩ => ?_
    exact ⟨hs2, hnodes2.trans hnodes1, hchildren2.trans hchildren1⟩
  current := fits_of_quiet fun _ _ => rfl
  peek n := fits_of_quiet fun _ _ => rfl
  advance := fits_of_quiet fun _ s => by
    rw [post_advance]
    exact s.next_arena
  advanceWhile skip := fits_of_quiet fun _ _ => rfl
  fault f span := fits_of_quiet fun _ _ => by
    rw [post_fault]
    exact ⟨fun _ => trivial, fun _ => rfl⟩
  intern text := fits_of_quiet fun _ _ => rfl
  resolve sym := fits_of_quiet fun _ _ => rfl
  build kind span := by
    intro c s hs
    rw [post_build]
    exact ⟨fun _ _ => trivial, fun hfits => ⟨hs.append hfits, rfl, rfl⟩⟩
  consumed := fits_of_quiet fun _ _ => rfl
  rounds := fits_of_quiet fun _ _ => rfl
  tooDeep := fun _ _ _ => trivial
  withMaxDepth hf := fun c s hs => hf c.maxDepth c s hs

end Parser

section

variable {lexed : Lexed} {opts : Options} {parsed : Parsed} {n : Nat}

theorem readProgram_within (h : readProgram lexed opts = .ok parsed) :
    parsed.ast.arena.Within ∧ parsed.ast.arena.maxNodes = opts.limits.clamped.maxNodes ∧
      parsed.ast.arena.maxChildren = opts.limits.maxChildren := by
  have hstart : (ParseState.ofStream lexed opts).arena.Within :=
    ⟨Nat.zero_le _, fun n hn => absurd hn (Array.not_mem_empty n)⟩
  have hfits := Parser.closed_program Parser.fits_stepClosed (.ofStream lexed opts) _ hstart
  obtain ⟨root, s, hwithin, rfl⟩ := hfits.of_readProgram h
  exact hwithin

theorem readProgram_fits (h : readProgram lexed opts = .ok parsed) :
    parsed.ast.arena.size ≤ Limits.maxIds := by
  obtain ⟨hwithin, hmax, -⟩ := readProgram_within h
  have hsize := hwithin.size
  rw [hmax] at hsize
  exact Nat.le_trans hsize (Nat.min_le_right _ _)

/-- With `d` levels, chains of expressions have at most `(d - 1) * (d - 1)`
nodes. -/
theorem chain_le_square (h : readProgram lexed opts = .ok parsed)
    (hn : parsed.ast.tree.HasChain n) :
    n ≤ (opts.limits.maxDepth - 1) * (opts.limits.maxDepth - 1) := by
  obtain ⟨t, ht, hn⟩ := hn
  exact (Shape.holds_of_program (readProgram_shape h)).low t n ht hn

/-- A statement, a block, a function and the program stand above each chain. -/
theorem chain_le_maxIds (h : readProgram lexed opts = .ok parsed)
    (hn : parsed.ast.tree.HasChain n) : n + 4 ≤ Limits.maxIds := by
  obtain ⟨t, ht, hn⟩ := hn
  obtain ⟨m, hle, hm⟩ := (Shape.holds_of_program (readProgram_shape h)).deep t n ht hn
  have hsize := readProgram_fits h
  have htrees := Arena.size_trees parsed.ast.arena parsed.ast.names
  by_cases hroot : parsed.ast.root < (parsed.ast.arena.trees parsed.ast.names).size
  · have htree : (parsed.ast.arena.trees parsed.ast.names)[parsed.ast.root]? =
        some parsed.ast.tree := by
      simp [Ast.tree, Array.getD_eq_getD_getElem?, hroot]
    have hpath : n + 4 ≤ (parsed.ast.arena.trees parsed.ast.names).size :=
      Nat.le_trans hle (Nat.le_trans (Arena.path_le htree hm) hroot)
    omega
  · have htree : parsed.ast.tree = .empty := by
      simp [Ast.tree, Array.getD_eq_getD_getElem?, hroot]
    rw [htree] at hm
    exact absurd hm Tree.not_path_empty

end

end StagedCompiler
