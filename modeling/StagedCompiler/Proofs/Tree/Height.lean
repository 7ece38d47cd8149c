import StagedCompiler.Proofs.Parser.ExprHeight
import StagedCompiler.Proofs.Parser.Totality
import StagedCompiler.Proofs.Target.Offences
import StagedCompiler.Proofs.Tree.AssemblingReaders

/-!
How high units get. With `n` levels left an expression has at most `n * n`
nodes on a way down, a type at most `n`, and a block adds two for each level it
takes. So no way down a unit is longer than a square of the depth limit,
whatever the source is and however many nodes it has.
-/

namespace StagedCompiler

namespace Tree

def height (t : Tree) : Nat :=
  t.fold fun _ _ heights => heights.max?.getD 0 + 1

section

variable {kind : NodeKind String Tree} {span : Span} {t : Tree} {h : Nat}

theorem height_node (kind : NodeKind String Tree) (span : Span) :
    (node kind span).height = (kind.children.map height).max?.getD 0 + 1 :=
  fold_node _ kind span

/-- A node is one higher than its highest child. -/
theorem height_node_cases (kind : NodeKind String Tree) (span : Span) :
    kind.children = [] ∧ (node kind span).height = 1 ∨
      ∃ t ∈ kind.children, (node kind span).height = t.height + 1 := by
  rw [height_node]
  cases hmax : (kind.children.map height).max? with
  | none => exact .inl ⟨List.map_eq_nil_iff.mp (List.max?_eq_none_iff.mp hmax), rfl⟩
  | some h =>
    obtain ⟨t, ht, rfl⟩ := List.mem_map.mp (List.max?_mem hmax)
    exact .inr ⟨t, ht, rfl⟩

theorem height_node_le (hle : ∀ t ∈ kind.children, t.height ≤ h) :
    (node kind span).height ≤ h + 1 := by
  rcases height_node_cases kind span with ⟨-, heq⟩ | ⟨t, ht, heq⟩
  · omega
  · have htop := hle t ht
    omega

theorem height_child (ht : t ∈ kind.children) : t.height + 1 ≤ (node kind span).height := by
  rw [height_node]
  exact Nat.succ_le_succ (List.le_max?_getD_of_mem (List.mem_map_of_mem ht))

theorem height_pos (t : Tree) : 0 < t.height := by
  obtain ⟨kind, span⟩ := t
  rw [height_node]
  exact Nat.succ_pos _

end

end Tree

namespace Shape

open StagedCompiler.Tree

theorem pos_of_type {n : Nat} {t : Tree} (h : TypeAt n t) : 0 < n := by
  cases h <;> exact Nat.succ_pos _

theorem height_of_type {n : Nat} {t : Tree} (h : TypeAt n t) : t.height ≤ n := by
  induction h with
  | prim _ _ => exact height_node_le (by simp [NodeKind.children])
  | named _ _ => exact height_node_le (by simp [NodeKind.children])
  | array _ _ _ ih => exact height_node_le (by simpa [NodeKind.children] using ih)
  | ref _ _ _ ih => exact height_node_le (by simpa [NodeKind.children] using ih)

/-- All nodes of an expression are expressions, so its longest way down is a
chain. -/
theorem chain_of_expr {n : Nat} {t : Tree} (h : Expr n t) : t.Chain t.height := by
  have hclosed : ExprClosed fun t => t.Chain t.height := by
    intro kind span hexpr hchildren
    rcases height_node_cases kind span with ⟨-, heq⟩ | ⟨t, ht, heq⟩
    · rw [heq]
      exact .one hexpr
    · rw [heq]
      exact .more hexpr ht (hchildren t ht)
  exact expr_closed hclosed h

theorem height_of_expr {n : Nat} {t : Tree} (h : Expr n t) : t.height ≤ n * n :=
  (low_of_expr h).2 t t.height (.self t) (chain_of_expr h)

/-! A statement with `n` levels left is an expression with one node above it,
or a block with one node above it. -/

mutual

/-- The height of a statement is bounded by the levels that it may use. -/
theorem height_of_stmt {n : Nat} {t : Tree} (h : StmtAt n t) : t.height ≤ n * n + n + 1 := by
  have hexpr {t : Tree} (ht : Expr n t) : t.height ≤ n * n + n :=
    Nat.le_trans (height_of_expr ht) (Nat.le_add_right _ _)
  match h with
  | .letStmt name mutable span htype hinit =>
    refine height_node_le fun t ht => ?_
    rcases List.mem_append.mp ht with ht | ht
    · exact Nat.le_trans (height_of_type (htype t (by simpa using ht))) (Nat.le_add_left _ _)
    · exact hexpr (hinit t (by simpa using ht))
  | .assign op span htarget hvalue =>
    refine height_node_le ?_
    simp only [NodeKind.children, List.forall_mem_cons]
    exact ⟨hexpr htarget, hexpr hvalue, by simp⟩
  | .returnStmt span hvalue =>
    refine height_node_le fun t ht => ?_
    exact hexpr (hvalue t (by simpa [NodeKind.children] using ht))
  | .exprStmt span hvalue =>
    refine height_node_le ?_
    simpa [NodeKind.children] using hexpr hvalue
  | .whileStmt span hcond hbody =>
    refine height_node_le ?_
    simp only [NodeKind.children, List.forall_mem_cons]
    exact ⟨hexpr hcond, height_of_block hbody, by simp⟩
  | .forStmt var span hiter hbody =>
    refine height_node_le ?_
    simp only [NodeKind.children, List.forall_mem_cons]
    exact ⟨hexpr hiter, height_of_block hbody, by simp⟩
  | .breakStmt span => exact height_node_le (by simp [NodeKind.children])
  | .continueStmt span => exact height_node_le (by simp [NodeKind.children])
  | .block hblock => exact Nat.le_succ_of_le (height_of_block hblock)
  | .conditional hconditional => exact Nat.le_succ_of_le (height_of_conditional hconditional)

theorem height_of_block {n : Nat} {t : Tree} (h : BlockAt n t) : t.height ≤ n * n + n := by
  match h with
  | @BlockAt.mk n stmts span hstmts =>
    have hle : (node (.block stmts) span).height ≤ n * n + n + 1 + 1 :=
      height_node_le fun t ht => height_of_stmt (hstmts t ht)
    rw [succ_mul_self]
    omega

theorem height_of_conditional {n : Nat} {t : Tree} (h : ConditionalAt n t) :
    t.height ≤ n * n + n := by
  match h with
  | @ConditionalAt.mk n cond thenBranch elseBranch span hcond hthen helse =>
    have hle : (node (.ifStmt cond thenBranch elseBranch) span).height ≤ n * n + n + 1 := by
      refine height_node_le ?_
      simp only [NodeKind.children, List.cons_append, List.nil_append, List.forall_mem_cons]
      refine ⟨Nat.le_trans (height_of_expr hcond) (Nat.le_add_right _ _), height_of_block hthen,
        fun t ht => ?_⟩
      match helse t (by simpa using ht) with
      | .block hblock => exact height_of_block hblock
      | .conditional hconditional => exact height_of_conditional hconditional
    rw [succ_mul_self]
    omega

end

theorem height_of_item {n : Nat} {t : Tree} (h : ItemAt n t) : t.height ≤ n * n + n + 1 := by
  -- A type has at least one level, so a parameter is no higher than a body can be.
  have htyped {kind : NodeKind String Tree} {span : Span} {type : Tree} (htype : TypeAt n type)
      (hkind : kind.children = [type]) : (node kind span).height ≤ n * n + n := by
    have hle : (node kind span).height ≤ n + 1 := by
      refine height_node_le ?_
      simpa [hkind] using height_of_type htype
    have hsquare : 1 * 1 ≤ n * n := Nat.mul_le_mul (pos_of_type htype) (pos_of_type htype)
    omega
  cases h with
  | function name isPublic span hparams hret hbody =>
    refine height_node_le fun t ht => ?_
    simp only [NodeKind.children, List.mem_append, List.mem_singleton, Option.mem_toList] at ht
    rcases ht with (ht | ht) | rfl
    · obtain ⟨pname, mutable, pspan, htype⟩ := hparams t ht
      exact htyped htype rfl
    · exact Nat.le_trans (height_of_type (hret t ht)) (Nat.le_add_left _ _)
    · exact height_of_block hbody
  | struct name span hfields =>
    refine height_node_le fun t ht => ?_
    obtain ⟨fname, fspan, htype⟩ := hfields t ht
    exact htyped htype rfl
  | importPath path span => exact height_node_le (by simp [NodeKind.children])

theorem height_of_program {n : Nat} {t : Tree} (h : ProgramAt n t) :
    t.height ≤ n * n + n + 2 := by
  obtain ⟨span, hitems⟩ := h
  exact height_node_le fun t ht => height_of_item (hitems t ht)

end Shape

namespace Arena

/-- A way down an arena, by the numbers of its nodes: each is a child of the one
before. -/
def Descent (a : Arena) (ids : List NodeId) : Prop :=
  ids.IsChain fun parent child => ∃ n ∈ a.nodes[parent]?, child ∈ n.kind.children

instance (a : Arena) (ids : List NodeId) : Decidable (a.Descent ids) :=
  inferInstanceAs (Decidable (ids.IsChain _))

theorem Descent.length_le_height {a : Arena} {names : Interner} (ho : a.Ordered) {id : NodeId}
    {ids : List NodeId} (h : a.Descent (id :: ids)) :
    (id :: ids).length ≤ (a.treeOf names id).height := by
  induction ids generalizing id with
  | nil => exact Tree.height_pos _
  | cons child ids ih =>
    obtain ⟨⟨n, hn, hchild⟩, hmore⟩ := List.isChain_cons_cons.mp h
    have htree : a.treeOf names child ∈ (n.kind.map names.resolve (a.treeOf names)).children := by
      rw [NodeKind.children_map]
      exact List.mem_map_of_mem hchild
    calc (id :: child :: ids).length
        = (child :: ids).length + 1 := rfl
      _ ≤ (a.treeOf names child).height + 1 := Nat.succ_le_succ (ih hmore)
      _ ≤ (Tree.node (n.kind.map names.resolve (a.treeOf names)) n.span).height :=
          Tree.height_child htree
      _ = (a.treeOf names id).height := by rw [treeOf_node ho hn]

end Arena

/-- No way down from the root of a unit has more nodes than a square of the
depth limit allows: not one through items, statements, types and expressions. -/
theorem parsed_height_le {src : String} {opts : Options} {parsed : Parsed}
    (h : parseSource src opts = .ok parsed) {ids : List NodeId}
    (hroot : ids.head? = some parsed.ast.root) (hdown : parsed.ast.arena.Descent ids) :
    ids.length ≤ opts.limits.maxDepth * opts.limits.maxDepth + opts.limits.maxDepth + 2 := by
  obtain ⟨lexed, -, hread⟩ := lexed_of_parseSource h
  have hheight := Shape.height_of_program (readProgram_shape hread)
  obtain ⟨s, root, dropped, hs, -, -, rfl⟩ := readProgram_history hread
  obtain ⟨ids, rfl⟩ := List.head?_eq_some_iff.mp hroot
  exact Nat.le_trans (hdown.length_le_height hs.forest.earlier) hheight

/-- Four levels, and thirteen nodes on the way down to `a`. -/
theorem parsed_height_le_brackets :
    ∃ parsed, parseSource "fn f()\x7b[[a].f+b].f.g+b+c;\x7d" { limits := { maxDepth := 4 } } =
        .ok parsed ∧
      [15, 14, 13, 12, 11, 9, 7, 6, 5, 4, 2, 1, 0].head? = some parsed.ast.root ∧
      parsed.ast.arena.Descent [15, 14, 13, 12, 11, 9, 7, 6, 5, 4, 2, 1, 0] ∧
      [15, 14, 13, 12, 11, 9, 7, 6, 5, 4, 2, 1, 0].length ≤ 4 * 4 + 4 + 2 := by
  have hrun : ((parseSource "fn f()\x7b[[a].f+b].f.g+b+c;\x7d"
      { limits := { maxDepth := 4 } }).toOption.any fun parsed => parsed.ast.root == 15 &&
        decide (parsed.ast.arena.Descent [15, 14, 13, 12, 11, 9, 7, 6, 5, 4, 2, 1, 0])) = true := by
    decide +kernel
  cases hparsed : parseSource "fn f()\x7b[[a].f+b].f.g+b+c;\x7d"
    { limits := { maxDepth := 4 } } with
  | error ds =>
    rw [hparsed] at hrun
    cases hrun
  | ok parsed =>
    rw [hparsed] at hrun
    obtain ⟨hroot, hdown⟩ := Bool.and_eq_true_iff.mp hrun
    have hhead : [15, 14, 13, 12, 11, 9, 7, 6, 5, 4, 2, 1, 0].head? = some parsed.ast.root := by
      rw [eq_of_beq hroot]
      rfl
    have hdown := of_decide_eq_true hdown
    exact ⟨parsed, rfl, hhead, hdown, parsed_height_le hparsed hhead hdown⟩

end StagedCompiler
