import Mathlib.Data.List.Nodup
import StagedCompiler.Ast

/-!
Arenas as forests. In an ordered arena every node holds earlier nodes only, so
each node has a tree. In a forest no node is held twice besides: what stands
below one child of a node stands below no other.
-/

namespace StagedCompiler

theorem NodeKind.map_congr {Name Child Name' Child' : Type} {kind : NodeKind Name Child}
    {f : Name → Name'} {g g' : Child → Child'} (h : ∀ child ∈ kind.children, g child = g' child) :
    kind.map f g = kind.map f g' := by
  have hoption (o : Option Child) (ho : ∀ child ∈ o, g child = g' child) : o.map g = o.map g' :=
    Option.map_congr ho
  cases kind <;> simp_all [map, children]

namespace Arena

/-- Every node holds earlier nodes only. -/
def Ordered (a : Arena) : Prop :=
  ∀ (id : NodeId) (n : Node), a.nodes[id]? = some n → ∀ child ∈ n.kind.children, child < id

theorem ordered_iff (a : Arena) :
    a.Ordered ↔ ∀ id (h : id < a.nodes.size), ∀ child ∈ a.nodes[id].kind.children, child < id := by
  constructor
  · intro h id hid child hchild
    exact h id a.nodes[id] (Array.getElem?_eq_getElem hid) child hchild
  · intro h id n hn child hchild
    obtain ⟨hid, rfl⟩ := Array.getElem?_eq_some_iff.mp hn
    exact h id hid child hchild

instance (a : Arena) : Decidable a.Ordered :=
  decidable_of_iff' _ a.ordered_iff

def treeOf (a : Arena) (names : Interner) (id : NodeId) : Tree :=
  (a.trees names).getD id .empty

/-- The nodes that stand below a node, itself included. -/
inductive Below (a : Arena) (top : NodeId) : NodeId → Prop
  | self : Below a top top
  | child {id child : NodeId} {n : Node} :
      Below a top id → a.nodes[id]? = some n → child ∈ n.kind.children → Below a top child

theorem size_append (a : Arena) (n : Node) : (a.append n).size = a.size + 1 :=
  Array.size_push n

section

variable {a : Arena} {n m : Node} {id : NodeId}

theorem node_append_old (h : a.nodes[id]? = some m) : (a.append n).nodes[id]? = some m := by
  have hid : id < a.nodes.size := (Array.getElem?_eq_some_iff.mp h).1
  rw [append, Array.getElem?_push_lt hid, ← h, Array.getElem?_eq_getElem hid]

theorem node_append_new : (a.append n).nodes[a.size]? = some n :=
  Array.getElem?_push_size

theorem node_append (h : (a.append n).nodes[id]? = some m) :
    a.nodes[id]? = some m ∨ id = a.size ∧ m = n := by
  rw [append, Array.getElem?_push] at h
  split at h
  · next hid =>
    cases h
    exact .inr ⟨hid, rfl⟩
  · exact .inl h

end

def held (a : Arena) : List NodeId :=
  a.nodes.toList.flatMap (·.kind.children)

theorem held_append (a : Arena) (n : Node) : (a.append n).held = a.held ++ n.kind.children := by
  simp [held, append]

/-- Nodes hold earlier nodes only and never share one; the loose nodes are
held by none. -/
structure Forest (a : Arena) (loose : List NodeId) : Prop where
  once : (a.held ++ loose).Nodup
  earlier : a.Ordered
  there : ∀ id ∈ loose, id < a.size

theorem Forest.held_lt {a : Arena} {loose : List NodeId} (h : a.Forest loose) {id : NodeId}
    (hid : id ∈ a.held) : id < a.size := by
  obtain ⟨n, hn, hchild⟩ := List.mem_flatMap.mp hid
  obtain ⟨i, hi, hget⟩ := List.getElem_of_mem hn
  have hnode : a.nodes[i]? = some n := by
    rw [← Array.getElem?_toList, List.getElem?_eq_getElem hi, hget]
  have hlt := h.earlier i n hnode id hchild
  rw [Array.length_toList] at hi
  exact Nat.lt_trans hlt hi

/-- A node made of loose nodes is itself loose. -/
theorem Forest.append {a : Arena} {loose : List NodeId} {n : Node}
    (h : a.Forest (n.kind.children ++ loose)) : (a.append n).Forest (a.size :: loose) where
  once := by
    rw [held_append, List.append_assoc]
    have hfresh : a.size ∉ a.held ++ (n.kind.children ++ loose) := by
      intro hmem
      rcases List.mem_append.mp hmem with hheld | hloose
      · exact Nat.lt_irrefl _ (h.held_lt hheld)
      · exact Nat.lt_irrefl _ (h.there _ hloose)
    have hperm : (a.size :: (a.held ++ (n.kind.children ++ loose))).Perm
        (a.held ++ (n.kind.children ++ a.size :: loose)) := by
      simp only [← List.append_assoc]
      exact List.perm_middle.symm
    exact hperm.nodup (List.nodup_cons.mpr ⟨hfresh, h.once⟩)
  earlier id m hm child hchild := by
    rcases node_append hm with hold | ⟨rfl, rfl⟩
    · exact h.earlier id m hold child hchild
    · exact h.there child (List.mem_append_left _ hchild)
  there id hid := by
    rw [size_append]
    rcases List.mem_cons.mp hid with rfl | hid
    · exact Nat.lt_succ_self _
    · exact Nat.lt_succ_of_lt (h.there id (List.mem_append_right _ hid))

theorem Forest.perm {a : Arena} {loose loose' : List NodeId} (h : a.Forest loose)
    (hperm : loose.Perm loose') : a.Forest loose' :=
  ⟨(hperm.append_left _).nodup h.once, h.earlier, fun id hid => h.there id (hperm.mem_iff.mpr hid)⟩

/-- A statement around a placeholder: two nodes, of which only the second is
loose. -/
theorem Forest.idle {a : Arena} {loose : List NodeId} (h : a.Forest loose) (span span' : Span) :
    ((a.append ⟨.int 0, span⟩).append ⟨.exprStmt a.size, span'⟩).Forest
      ((a.size + 1) :: loose) := by
  have hzero : (a.append ⟨.int 0, span⟩).Forest (a.size :: loose) := Forest.append h
  rw [← a.size_append ⟨.int 0, span⟩]
  exact Forest.append hzero

section

variable {a : Arena} {loose : List NodeId} {names : Interner} {id top parent parent' child
  other : NodeId} {n m : Node}

/-! ### Trees of an arena -/

theorem getD_push_of_lt {trees : Array Tree} {t : Tree} (h : id < trees.size) :
    (trees.push t).getD id .empty = trees.getD id .empty := by
  simp [Array.getD_eq_getD_getElem?, Array.getElem?_push_lt h, h]

/-- The tree of a node is made of the trees of its children, which are nodes
from before. -/
theorem treeOf_node (h : a.Ordered) (hn : a.nodes[id]? = some n) :
    a.treeOf names id = .node (n.kind.map names.resolve (a.treeOf names)) n.span := by
  let Made (i : Nat) (trees : Array Tree) : Prop :=
    trees.size = i ∧ ∀ (id : Nat) (n : Node), id < i → a.nodes[id]? = some n →
      trees.getD id .empty = .node (n.kind.map names.resolve (trees.getD · .empty)) n.span
  have hall : Made a.nodes.size (a.trees names) := by
    refine Array.foldl_induction Made ⟨rfl, by intro id n hid; cases hid⟩ ?_
    intro i trees hmade
    obtain ⟨hsize, hmade⟩ := hmade
    refine ⟨by rw [Array.size_push, hsize], ?_⟩
    intro id n hid hn
    have hchildren (t : Tree) : n.kind.map names.resolve (trees.getD · .empty) =
        n.kind.map names.resolve ((trees.push t).getD · .empty) := by
      apply NodeKind.map_congr
      intro child hchild
      have hlt := h id n hn child hchild
      exact (getD_push_of_lt (Nat.lt_of_lt_of_le hlt (by omega))).symm
    by_cases hnew : id = i
    · have hnode : a.nodes[i] = n := by
        rw [hnew, Array.getElem?_eq_getElem i.isLt, Option.some_inj] at hn
        exact hn
      rw [← hchildren, hnew, ← hsize]
      simp [Array.getD_eq_getD_getElem?, hnode]
    · have hold : id < trees.size := by omega
      rw [getD_push_of_lt hold, hmade id n (by omega) hn, ← hchildren]
  have hid : id < a.nodes.size := (Array.getElem?_eq_some_iff.mp hn).1
  exact hall.2 id n hid hn

/-! ### Below a node -/

theorem Ordered.child_node (h : a.Ordered) (hn : a.nodes[parent]? = some n)
    (hchild : child ∈ n.kind.children) : ∃ m, a.nodes[child]? = some m := by
  have hlt := h _ _ hn _ hchild
  have hparent : parent < a.nodes.size := (Array.getElem?_eq_some_iff.mp hn).1
  exact ⟨_, Array.getElem?_eq_getElem (Nat.lt_trans hlt hparent)⟩

theorem Below.trans {low : NodeId} (h : a.Below top id) (h' : a.Below id low) :
    a.Below top low := by
  induction h' with
  | self => exact h
  | child _ hn hchild ih => exact ih.child hn hchild

theorem Ordered.below_le (h : a.Ordered) (hid : a.Below top id) : id ≤ top := by
  induction hid with
  | self => exact Nat.le_refl _
  | child _ hn hchild ih => exact Nat.le_trans (Nat.le_of_lt (h _ _ hn _ hchild)) ih

theorem Forest.children_nodup (h : a.Forest loose) (hn : a.nodes[id]? = some n) :
    n.kind.children.Nodup := by
  have honce := (List.nodup_append.mp h.once).1
  apply (List.nodup_flatMap.mp honce).1
  rw [Array.mem_toList_iff]
  exact Array.mem_of_getElem? hn

/-- A node has one parent at most. -/
theorem Forest.parent_unique (h : a.Forest loose) (hn : a.nodes[parent]? = some n)
    (hchild : child ∈ n.kind.children) (hm : a.nodes[parent']? = some m)
    (hchild' : child ∈ m.kind.children) : parent = parent' := by
  have honce := (List.nodup_append.mp h.once).1
  have hpairs := List.pairwise_iff_getElem.mp (List.nodup_flatMap.mp honce).2
  obtain ⟨hlt, rfl⟩ := Array.getElem?_eq_some_iff.mp hn
  obtain ⟨hlt', rfl⟩ := Array.getElem?_eq_some_iff.mp hm
  rcases Nat.lt_trichotomy parent parent' with hless | heq | hless
  · exact absurd hchild' (hpairs parent parent' (by simpa) (by simpa) hless hchild)
  · exact heq
  · exact absurd hchild (hpairs parent' parent (by simpa) (by simpa) hless hchild')

theorem Forest.below_comparable (h : a.Forest loose) (hid : a.Below top id)
    (hid' : a.Below other id) : a.Below top other ∨ a.Below other top := by
  induction hid with
  | self => exact .inr hid'
  | child hparent hn hchild ih =>
    cases hid' with
    | self => exact .inl (hparent.child hn hchild)
    | child hparent' hm hchild' =>
      cases h.parent_unique hn hchild hm hchild'
      exact ih hparent'

theorem Forest.not_below_sibling (h : a.Forest loose) (hn : a.nodes[parent]? = some n)
    (hchild : child ∈ n.kind.children) (hother : other ∈ n.kind.children) (hne : child ≠ other) :
    ¬a.Below child other := by
  intro hbelow
  cases hbelow with
  | self => exact hne rfl
  | child hup hm hchild' =>
    cases h.parent_unique hn hother hm hchild'
    exact Nat.lt_irrefl _ (Nat.lt_of_lt_of_le (h.earlier _ _ hn _ hchild) (h.earlier.below_le hup))

/-- What stands below one child of a node stands below no other. -/
theorem Forest.siblings_apart (h : a.Forest loose) (hn : a.nodes[parent]? = some n)
    (hchild : child ∈ n.kind.children) (hother : other ∈ n.kind.children) (hne : child ≠ other)
    (hid : a.Below child id) : ¬a.Below other id := by
  intro hid'
  rcases h.below_comparable hid hid' with hbelow | hbelow
  · exact h.not_below_sibling hn hchild hother hne hbelow
  · exact h.not_below_sibling hn hother hchild hne.symm hbelow

theorem below_cases (hn : a.nodes[top]? = some n) (h : a.Below top id) :
    id = top ∨ ∃ child ∈ n.kind.children, a.Below child id := by
  induction h with
  | self => exact .inl rfl
  | child hup hm hchild ih =>
    rcases ih with rfl | ⟨between, hbetween, hbelow⟩
    · cases hn.symm.trans hm
      exact .inr ⟨_, hchild, .self⟩
    · exact .inr ⟨between, hbetween, hbelow.child hm hchild⟩

end

end Arena

end StagedCompiler
