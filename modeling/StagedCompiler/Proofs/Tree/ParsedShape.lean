import StagedCompiler.Proofs.Parser.SingleRuns
import StagedCompiler.Proofs.Tree.Shape
import StagedCompiler.Proofs.Tree.Store

/-!
Readers build nothing but the shapes, in both modes. A tree is looked at under
some table of names that stays fixed, so that it does not matter which names a
reader still adds. Nodes are never changed once they are built, so what a node
stands for is settled when its reader ends.
-/

namespace StagedCompiler

namespace Parser

open Shape

/-- A node that stands for a tree with the property. -/
def Stands (names : Interner) (s : ParseState) (id : NodeId) (P : Tree → Prop) : Prop :=
  ∃ t, (s.arena.trees names)[id]? = some t ∧ P t

def lookup (names : Interner) (s : ParseState) (id : NodeId) : Tree :=
  (s.arena.trees names).getD id .empty

/-- Every node that stands for a tree goes on doing so. -/
def Grown (names : Interner) (s s' : ParseState) : Prop :=
  ∀ (id : NodeId) (t : Tree), (s.arena.trees names)[id]? = some t →
    (s'.arena.trees names)[id]? = some t

section

variable {names : Interner} {s s1 s2 : ParseState} {id : NodeId} {P P' : Tree → Prop}

theorem Stands.lookup (h : Stands names s id P) : P (lookup names s id) := by
  obtain ⟨t, ht, hp⟩ := h
  simpa [Parser.lookup, Array.getD_eq_getD_getElem?, ht] using hp

theorem Stands.later (h : Stands names s id P) (hs : Grown names s s1) : Stands names s1 id P := by
  obtain ⟨t, ht, hp⟩ := h
  exact ⟨t, hs id t ht, hp⟩

theorem Stands.imp (h : Stands names s id P) (hp : ∀ t, P t → P' t) : Stands names s id P' := by
  obtain ⟨t, ht, hpt⟩ := h
  exact ⟨t, ht, hp t hpt⟩

theorem Grown.trans (h : Grown names s s1) (h' : Grown names s1 s2) : Grown names s s2 :=
  fun id t ht => h' id t (h id t ht)

theorem Grown.of_arena (h : s1.arena = s.arena) : Grown names s s1 := by
  intro id t ht
  rw [h]
  exact ht

theorem Grown.grow (s : ParseState) (n : Node) : Grown names s (s.grow n) := by
  intro id t ht
  have hid : id < (s.arena.trees names).size := (Array.getElem?_eq_some_iff.mp ht).1
  simp only [ParseState.grow, Arena.trees_append]
  rw [Array.getElem?_push_lt hid, ← ht, Array.getElem?_eq_getElem hid]

theorem stands_grow {kind : NodeKind Symbol NodeId} {span : Span}
    (h : P (.node (kind.map names.resolve (lookup names s)) span)) :
    Stands names (s.grow ⟨kind, span⟩) s.arena.size P := by
  refine ⟨_, ?_, h⟩
  simp only [ParseState.grow, Arena.trees_append, ← Arena.size_trees s.arena names,
    Array.getElem?_push_size]
  rfl

end

/-- The trees that are read as a part. -/
def Part.shape (maxDepth : Nat) : Part → Tree → Prop
  | type n => TypeAt n
  | operand n => Operand n
  | reference n => fun t => ∃ x span, t = .node (.unary .ref x) span ∧ Operand n x
  | primary n => Primary n
  | postfixed n m => Postfixed n m
  | linked n m => Linked n m
  | expr n => Expr n
  | stmt n => StmtAt n
  | block n => BlockAt n
  | conditional n => ConditionalAt n
  | branch n => ElseAt n
  | param n => ParamAt n
  | field n => FieldAt n
  | item n => ItemAt n
  | program => ProgramAt maxDepth

theorem Part.Sub.shape {maxDepth : Nat} {k k' : Part} (h : k.Sub k') {t : Tree}
    (ht : k.shape maxDepth t) : k'.shape maxDepth t := by
  cases h with
  | group => exact .group ht
  | base => exact .base ht
  | bare => exact .bare ht
  | first => exact .first ht
  | whole => exact .mk ht
  | blockStmt => exact .block ht
  | conditionalStmt => exact .conditional ht
  | blockBranch => exact .block ht
  | conditionalBranch => exact .conditional ht

/-- A node stands for a tree of the part that it was read as. -/
def shapeBond (names : Interner) (maxDepth : Nat) : Bond ParseState where
  le := Grown names
  refl _ := .of_arena rfl
  trans h h' := h.trans h'
  place _ _ := True
  place_to _ _ := trivial
  known _ := True
  name _ _ := True
  name_of_known _ := trivial
  name_later _ _ := trivial
  id s k i _ := Stands names s i (k.shape maxDepth)
  id_later hle h := h.later hle
  id_sub hsub h := h.imp fun _ ht => hsub.shape ht
  level := Eq
  even := True
  level_zero := Bond.level_zero_of_eq
  level_succ := Bond.level_succ_of_eq
  top depth := depth = maxDepth
  free := False
  place_self _ _ := trivial
  name_self _ _ _ := trivial
  id_self h := h.elim

section

variable {names : Interner} {maxDepth : Nat} {s : ParseState} {k : Part}

theorem shapes_lookup {is is' : List NodeId}
    (h : List.Forall₂ ((shapeBond names maxDepth).id s k) is is') :
    ∀ t ∈ is.map (lookup names s), k.shape maxDepth t := by
  induction h with
  | nil => exact fun _ ht => absurd ht List.not_mem_nil
  | cons hi _ ih => exact List.forall_mem_cons.mpr ⟨hi.lookup, ih⟩

theorem shape?_lookup {i i' : Option NodeId}
    (h : Option.Rel ((shapeBond names maxDepth).id s k) i i') :
    ∀ t ∈ i.map (lookup names s), k.shape maxDepth t := by
  cases h with
  | none => exact fun _ ht => nomatch ht
  | some hi =>
    rintro _ ⟨⟩
    exact hi.lookup

theorem isAtom_of_literal? {kind : TokenKind} {node : NodeKind Symbol NodeId}
    (h : kind.literal? = some node) (lookup : NodeId → Tree) :
    (node.map names.resolve lookup).isAtom = true := by
  cases TokenKind.isLiteral h <;> rfl

/-- The shapes are those that the readers form. -/
theorem shape_of_forms {kind kind' : NodeKind Symbol NodeId}
    (h : (shapeBond names maxDepth).Forms s k kind kind') (span : Span) :
    k.shape maxDepth (.node (kind.map names.resolve (lookup names s)) span) := by
  cases h with
  | prim type => exact .prim type span
  | named => exact .named _ span
  | array len hi => exact .array len span hi.lookup
  | ref mutable hi => exact .ref mutable span hi.lookup
  | unary op hi => exact .unary op span hi.lookup
  | inner hi => exact ⟨_, span, rfl, hi.lookup⟩
  | outer hi =>
    obtain ⟨x, inner, hnode, hx⟩ := hi.lookup
    simp only [NodeKind.map, hnode]
    exact .refRef inner span hx
  | literal _ hkind => exact .atom span (isAtom_of_literal? hkind _)
  | zero | ident => exact .atom span rfl
  | arrayLit his => exact .array span (shapes_lookup his)
  | structLit _ hfields =>
    refine .struct _ span ?_
    induction hfields with
    | nil => exact fun _ hf => absurd hf List.not_mem_nil
    | cons hf _ ih => exact List.forall_mem_cons.mpr ⟨hf.value.lookup, ih⟩
  | call hi his => exact .call span hi.lookup (shapes_lookup his)
  | index hi hj => exact .index span hi.lookup hj.lookup
  | fieldAccess hi => exact .field _ span hi.lookup
  | link op hi hj =>
    have hmap (i j : NodeId) : (op.node i j : NodeKind Symbol NodeId).map names.resolve
        (lookup names s) = op.node (lookup names s i) (lookup names s j) := by
      cases op <;> rfl
    rw [hmap]
    exact .link op span hi.lookup hj.lookup
  | letStmt mutable _ hty hinit =>
    exact .letStmt _ mutable span (shape?_lookup hty) (shape?_lookup hinit)
  | assign op hi hj => exact .assign op span hi.lookup hj.lookup
  | returnStmt hvalue => exact .returnStmt span (shape?_lookup hvalue)
  | exprStmt hi => exact .exprStmt span hi.lookup
  | whileStmt hi hj => exact .whileStmt span hi.lookup hj.lookup
  | forStmt _ hi hj => exact .forStmt _ span hi.lookup hj.lookup
  | breakStmt => exact .breakStmt span
  | continueStmt => exact .continueStmt span
  | block his => exact .mk span (shapes_lookup his)
  | ifStmt hi hj hk => exact .mk span hi.lookup hj.lookup (shape?_lookup hk)
  | param mutable _ hi => exact .mk _ mutable span hi.lookup
  | field _ hi => exact .mk _ span hi.lookup
  | function isPublic _ his hret hbody =>
    exact .function _ isPublic span (shapes_lookup his) (shape?_lookup hret) hbody.lookup
  | struct _ his => exact .struct _ span (shapes_lookup his)
  | importPath => exact .importPath _ span
  | program htop his =>
    cases htop
    exact .mk span (shapes_lookup his)

theorem shapes_steady (names : Interner) (c : ParseSettings) :
    (shapeBond names c.maxDepth).Steady c fun _ => True where
  place _ := trivial
  level _ := rfl
  top := rfl
  front _ := trivial
  skip _ _ := ⟨trivial, .of_arena rfl⟩
  report _ _ _ := ⟨trivial, .of_arena rfl⟩
  missing _ _ _ _ hs' := ⟨⟨trivial, .of_arena (by rw [hs']; rfl)⟩, trivial⟩
  build span _ hform _ := ⟨⟨trivial, .grow _ _⟩, stands_grow (shape_of_forms hform span)⟩

end

end Parser

/-- The tree of a unit has the shape of a program, nested no deeper than the
limits allow. -/
theorem readProgram_shape {lexed : Lexed} {opts : Options} {parsed : Parsed}
    (h : readProgram lexed opts = .ok parsed) :
    Shape.ProgramAt opts.limits.maxDepth parsed.ast.tree := by
  have hrun := (Parser.shapes_steady parsed.ast.names (.ofStream lexed opts)).program
    (s := .ofStream lexed opts) trivial
  obtain ⟨root, s, ⟨-, _, hroot⟩, hparsed⟩ := hrun.of_readProgram h
  have htree := hroot.id.lookup
  rw [hparsed] at htree ⊢
  exact htree

end StagedCompiler
