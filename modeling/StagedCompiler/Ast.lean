import StagedCompiler.Arena

/-!
A parsed unit and its trees. `Ast` is the arena with the table of names and
the number of the root node. `Tree` is what it describes: the same node kinds
with names and children in place of their numbers. The analyses and the
generator work on trees.
-/

namespace StagedCompiler

inductive Tree where
  | node (kind : NodeKind String Tree) (span : Span)

namespace Tree

def kind : Tree → NodeKind String Tree
  | node kind _ => kind

def span : Tree → Span
  | node _ span => span

/-- What a number that belongs to no earlier node stands for. -/
def empty : Tree :=
  node (.program []) {}

instance : Inhabited Tree := ⟨empty⟩

mutual

/-- Work from the leaves up: `f` sees a node and, in order, the results of its
children. -/
def fold {β : Type} (f : NodeKind String Tree → Span → List β → β) : Tree → β
  | node kind span => f kind span (foldKind f kind)

def foldKind {β : Type} (f : NodeKind String Tree → Span → List β → β) :
    NodeKind String Tree → List β
  | .program items => (foldList f #[] items).toList
  | .function _ _ params ret body =>
      ((foldList f #[] params ++ foldOption f ret).push (body.fold f)).toList
  | .struct _ fields => (foldList f #[] fields).toList
  | .field _ type => [type.fold f]
  | .param _ _ type => [type.fold f]
  | .block stmts => (foldList f #[] stmts).toList
  | .letStmt _ _ type init => (foldOption f type ++ foldOption f init).toList
  | .assign target _ value => [target.fold f, value.fold f]
  | .returnStmt value => (foldOption f value).toList
  | .exprStmt expr => [expr.fold f]
  | .ifStmt cond thenBranch elseBranch =>
      cond.fold f :: thenBranch.fold f :: (foldOption f elseBranch).toList
  | .whileStmt cond body => [cond.fold f, body.fold f]
  | .forStmt _ iter body => [iter.fold f, body.fold f]
  | .binary _ lhs rhs => [lhs.fold f, rhs.fold f]
  | .unary _ operand => [operand.fold f]
  | .call callee args => callee.fold f :: (foldList f #[] args).toList
  | .index base index => [base.fold f, index.fold f]
  | .fieldAccess base _ => [base.fold f]
  | .arrayLit elems => (foldList f #[] elems).toList
  | .structLit _ fields => (foldFields f #[] fields).toList
  | .range start stop _ => [start.fold f, stop.fold f]
  | .arrayType elem _ => [elem.fold f]
  | .refType _ inner => [inner.fold f]
  | .importPath _ | .breakStmt | .continueStmt | .ident _ | .int _ | .float _ | .str _ | .char _
  | .bool _ | .primType _ | .namedType _ => []

def foldList {β : Type} (f : NodeKind String Tree → Span → List β → β) (done : Array β) :
    List Tree → Array β
  | [] => done
  | t :: ts => foldList f (done.push (t.fold f)) ts

def foldOption {β : Type} (f : NodeKind String Tree → Span → List β → β) :
    Option Tree → Array β
  | none => #[]
  | some t => #[t.fold f]

def foldFields {β : Type} (f : NodeKind String Tree → Span → List β → β) (done : Array β) :
    List (FieldInit String Tree) → Array β
  | [] => done
  | ⟨_, value, _⟩ :: fields => foldFields f (done.push (value.fold f)) fields

end

section

variable {β : Type} (f : NodeKind String Tree → Span → List β → β)

theorem toList_foldList (done : Array β) (ts : List Tree) :
    (foldList f done ts).toList = done.toList ++ ts.map (fold f) := by
  induction ts generalizing done with
  | nil => simp [foldList]
  | cons t ts ih => simp [foldList, ih]

theorem toList_foldOption (t : Option Tree) :
    (foldOption f t).toList = t.toList.map (fold f) := by
  cases t <;> simp [foldOption]

theorem toList_foldFields (done : Array β) (fields : List (FieldInit String Tree)) :
    (foldFields f done fields).toList = done.toList ++ fields.map fun i => i.value.fold f := by
  induction fields generalizing done with
  | nil => simp [foldFields]
  | cons i fields ih => cases i; simp [foldFields, ih]

theorem foldKind_eq (kind : NodeKind String Tree) :
    foldKind f kind = kind.children.map (fold f) := by
  cases kind <;>
    simp [foldKind, NodeKind.children, toList_foldList, toList_foldOption, toList_foldFields,
      Function.comp_def]

/-- A fold sees the children of a node as its kind lists them. -/
theorem fold_node (kind : NodeKind String Tree) (span : Span) :
    (node kind span).fold f = f kind span (kind.children.map (fold f)) := by
  rw [fold, foldKind_eq]

end

theorem sizeOf_child {kind : NodeKind String Tree} {t : Tree} (h : t ∈ kind.children)
    (span : Span) :
    sizeOf t < sizeOf (node kind span) := by
  have hlist (ts : List Tree) (ht : t ∈ ts) : sizeOf t < sizeOf ts := List.sizeOf_lt_of_mem ht
  have hoption (o : Option Tree) (ht : t ∈ o.toList) : sizeOf t < sizeOf o := by
    cases o <;> simp_all
  have hfields (fields : List (FieldInit String Tree)) (ht : t ∈ fields.map (·.value)) :
      sizeOf t < sizeOf fields := by
    obtain ⟨field, hfield, rfl⟩ := List.mem_map.mp ht
    have hlt := List.sizeOf_lt_of_mem hfield
    cases field
    simp at hlt ⊢
    omega
  cases kind <;> simp [NodeKind.children] at h ⊢ <;> grind

/-- What holds of a node whenever it holds of its children holds of all trees. -/
theorem induction {P : Tree → Prop}
    (step : ∀ kind span, (∀ t ∈ kind.children, P t) → P (node kind span)) (t : Tree) : P t := by
  cases t with
  | node kind span =>
    apply step
    intro t ht
    have hlt := sizeOf_child ht span
    exact induction step t
termination_by sizeOf t
decreasing_by exact hlt

end Tree

/-- The trees of all nodes, each built from those before it. -/
def Arena.trees (a : Arena) (names : Interner) : Array Tree :=
  a.nodes.foldl (fun trees n =>
    trees.push (.node (n.kind.map names.resolve fun id => trees.getD id .empty) n.span)) #[]

structure Ast where
  arena : Arena
  names : Interner
  root : NodeId

namespace Ast

def tree (ast : Ast) : Tree :=
  (ast.arena.trees ast.names).getD ast.root .empty

/-- The numbers of the top-level items; a root that is no program has none. -/
def items (ast : Ast) : List NodeId :=
  match ast.arena.nodes[ast.root]? with
  | some ⟨.program items, _⟩ => items
  | _ => []

end Ast

def Tree.items : Tree → List Tree
  | .node (.program items) _ => items
  | _ => []

end StagedCompiler
