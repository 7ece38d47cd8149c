import Mathlib.Data.List.Forall2
import StagedCompiler.Proofs.Parser.Running

/-!
Trees of a growing arena. A node that is appended gets the tree of its
children's trees, and the trees of the nodes before it stay. `Denotes` ties a
node that a reader built to its tree, and `Took` says which tokens a run used
up while every earlier node kept its tree.
-/

namespace StagedCompiler

theorem InfixOp.node_map {Name Child Name' Child' : Type} (op : InfixOp) (lhs rhs : Child)
    (f : Name → Name') (g : Child → Child') :
    (op.node lhs rhs : NodeKind Name Child).map f g = op.node (g lhs) (g rhs) := by
  cases op <;> rfl

namespace Arena

theorem trees_append (a : Arena) (n : Node) (names : Interner) :
    (a.append n).trees names =
      (a.trees names).push
        (.node (n.kind.map names.resolve fun id => (a.trees names).getD id .empty) n.span) := by
  simp [trees, append]

private theorem size_foldl_push {α β : Type} (f : Array β → α → β) (xs : List α)
    (done : Array β) :
    (xs.foldl (fun acc x => acc.push (f acc x)) done).size = done.size + xs.length := by
  induction xs generalizing done with
  | nil => rfl
  | cons x xs ih =>
    rw [List.foldl_cons, ih, Array.size_push, List.length_cons]
    omega

theorem size_trees (a : Arena) (names : Interner) : (a.trees names).size = a.size := by
  unfold trees
  rw [← Array.foldl_toList, size_foldl_push]
  simp [size]

end Arena

namespace ParseState

def tree? (s : ParseState) (id : NodeId) : Option Tree :=
  (s.arena.trees s.names)[id]?

theorem tree?_grow_old (s : ParseState) (n : Node) {id : NodeId} {t : Tree}
    (h : s.tree? id = some t) : (s.grow n).tree? id = some t := by
  unfold tree? at h ⊢
  have hid : id < (s.arena.trees s.names).size := (Array.getElem?_eq_some_iff.mp h).1
  simp only [grow, Arena.trees_append]
  rw [Array.getElem?_push_lt hid, ← h, Array.getElem?_eq_getElem hid]

theorem tree?_grow_new (s : ParseState) (n : Node) :
    (s.grow n).tree? s.arena.size =
      some (.node (n.kind.map s.names.resolve fun id => (s.tree? id).getD .empty) n.span) := by
  unfold tree?
  simp only [grow, Arena.trees_append]
  rw [← Arena.size_trees s.arena s.names, Array.getElem?_push_size]
  simp

end ParseState

namespace Parser

structure Denotes (s : ParseState) (b : Built) (t : Tree) : Prop where
  tree : s.tree? b.id = some t
  span : b.span = t.span

/-- A run used up `ts`, reported nothing, and kept every name and every node
it found. -/
structure Took (s s' : ParseState) (ts : List Token) : Prop where
  rest : s.rest = ts ++ s'.rest
  consumed : s'.consumed = s.consumed + ts.length
  names : s'.names = s.names
  trees : ∀ id t, s.tree? id = some t → s'.tree? id = some t

namespace Took

theorem refl (s : ParseState) : Took s s [] :=
  ⟨rfl, rfl, rfl, fun _ _ h => h⟩

theorem trans {s s' s'' : ParseState} {ts us : List Token} (h : Took s s' ts)
    (h' : Took s' s'' us) : Took s s'' (ts ++ us) where
  rest := by rw [h.rest, h'.rest, List.append_assoc]
  consumed := by rw [h'.consumed, h.consumed, List.length_append, Nat.add_assoc]
  names := h'.names.trans h.names
  trees id t ht := h'.trees id t (h.trees id t ht)

/-- Taking a token that is there. -/
theorem head {s : ParseState} {t : Token} {ts : List Token} (h : s.rest = t :: ts) :
    Took s s.next [t] where
  rest := by simp [h]
  consumed := s.next_consumed (by simp [h])
  names := s.next_names
  trees id t ht := by simpa [ParseState.tree?] using ht

/-- Taking a token that is not the closing one. -/
theorem front {c : ParseSettings} {s : ParseState} (h : (front c s).kind ≠ .eof) :
    Took s s.next [Parser.front c s] :=
  head (rest_eq_front h)

theorem same_front {c : ParseSettings} {s s' : ParseState} (h : Took s s' []) :
    Parser.front c s' = Parser.front c s := by
  have hrest : s.rest = s'.rest := h.rest
  rw [Parser.front, Parser.front, hrest]

theorem grow (s : ParseState) (n : Node) : Took s (s.grow n) [] :=
  ⟨rfl, rfl, rfl, fun _ _ h => s.tree?_grow_old n h⟩

end Took

theorem Denotes.later {s s' : ParseState} {b : Built} {t : Tree} {ts : List Token}
    (h : Denotes s b t) (took : Took s s' ts) : Denotes s' b t :=
  ⟨took.trees b.id t h.tree, h.span⟩

/-- The node that was just built, over the trees of its children. -/
theorem Denotes.grow (s : ParseState) (kind : NodeKind Symbol NodeId) (span : Span) :
    Denotes (s.grow ⟨kind, span⟩) ⟨s.arena.size, kind, span⟩
      (.node (kind.map s.names.resolve fun id => (s.tree? id).getD .empty) span) :=
  ⟨s.tree?_grow_new ⟨kind, span⟩, rfl⟩

/-- A node is either refused by a limit or stands for the node over the trees
of its children. -/
theorem post_build_tree {c : ParseSettings} {s : ParseState} {kind : NodeKind Symbol NodeId}
    {span : Span} {Q : Built → ParseState → Prop} {E : Diagnostics → Prop}
    (hE : ∀ e : Exceeded, E (s.diagnostics.push (e.diagnostic span)))
    (hQ : ∀ b s', Took s s' [] →
      Denotes s' b (.node (kind.map s.names.resolve fun id => (s.tree? id).getD .empty) span) →
      Q b s') :
    (build kind span).Post c s Q E := by
  rw [post_build]
  exact ⟨fun e _ => hE e, fun _ => hQ _ _ (Took.grow s _) (Denotes.grow s kind span)⟩

/-- A child that was built stands for its tree wherever it is looked up. -/
theorem Denotes.lookup {s : ParseState} {b : Built} {t : Tree} (h : Denotes s b t) :
    (s.tree? b.id).getD .empty = t := by
  rw [h.tree]
  rfl

theorem lookup_all {s : ParseState} {bs : List Built} {ts : List Tree}
    (h : List.Forall₂ (Denotes s) bs ts) :
    (bs.map (·.id)).map (fun id => (s.tree? id).getD .empty) = ts := by
  induction h with
  | nil => rfl
  | cons hb _ ih => rw [List.map_cons, List.map_cons, hb.lookup, ih]

structure DenotesField (names : Interner) (s : ParseState) (f : FieldInit Symbol NodeId)
    (x : FieldInit String Tree) : Prop where
  name : names.resolve f.name = x.name
  value : s.tree? f.value = some x.value
  span : f.span = x.span

theorem lookup_fields {s : ParseState} {names : Interner}
    {fs : List (FieldInit Symbol NodeId)} {xs : List (FieldInit String Tree)}
    (h : List.Forall₂ (DenotesField names s) fs xs) :
    fs.map (fun f => (⟨names.resolve f.name, (s.tree? f.value).getD .empty, f.span⟩ :
      FieldInit String Tree)) = xs := by
  induction h with
  | nil => rfl
  | cons hf _ ih => rw [List.map_cons, hf.name, hf.value, hf.span, ih]; rfl

theorem DenotesField.later {names : Interner} {s s' : ParseState} {ts : List Token}
    {f : FieldInit Symbol NodeId} {x : FieldInit String Tree} (h : DenotesField names s f x)
    (took : Took s s' ts) : DenotesField names s' f x :=
  ⟨h.name, took.trees _ _ h.value, h.span⟩

end Parser

end StagedCompiler
