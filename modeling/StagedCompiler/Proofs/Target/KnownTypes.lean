import StagedCompiler.Proofs.Target.GeneratorRuns

/-!
Types that a generator can meet. A type comes from a type tree, from a literal
or from the support library, and every other one is a part of such a type or a
pointer or array of it. So a property that starts true and is passed on this
way is true of all types that are declared or told from an expression.
-/

namespace StagedCompiler

def Tree.all (p : NodeKind String Tree → Bool) (t : Tree) : Bool :=
  t.fold fun kind _ parts => p kind && parts.all id

theorem Tree.all_node {p : NodeKind String Tree → Bool} {kind : NodeKind String Tree}
    {span : Span} :
    (Tree.node kind span).all p = true ↔
      p kind = true ∧ ∀ t ∈ kind.children, t.all p = true := by
  rw [Tree.all, Tree.fold_node, Bool.and_eq_true, List.all_map, List.all_eq_true]
  rfl

namespace Target

/-- A property that the types of trees have if all their nodes pass `q`. -/
structure Inherited (q : NodeKind String Tree → Bool) (P : CType → Prop) : Prop where
  named {name : String} : q (.namedType name) = true → P (.struct name)
  literal {name : String} {fields : List (FieldInit String Tree)} :
    q (.structLit name fields) = true → P (.struct name)
  prim (p : PrimType) : P (.ofPrim p)
  void : P .void
  builtin : ∀ b ∈ Builtin.all, P b.retType
  ptr {t : CType} : P t → P (.ptr t)
  array {t : CType} (len : Nat) : P t → P (.array t len)
  elem {t u : CType} : P t → t.elem? = some u → P u

structure Scope.Holds (P : CType → Prop) (s : Scope) : Prop where
  vars : ∀ name t, s.var? name = some t → P t
  fns : ∀ name sig, s.fn? name = some sig → P sig.ret
  fields : ∀ name fs, s.fields? name = some fs → ∀ f ∈ fs, P f.2

namespace Scope.Holds

variable {P : CType → Prop} {s : Scope}

theorem empty : Holds P {} := by
  constructor
  · intro name t ht
    simp [var?] at ht
  · intro name sig hsig
    simp [fn?] at hsig
  · intro name fs hfs
    simp [fields?] at hfs

theorem enterFunction (h : s.Holds P) : s.enterFunction.Holds P where
  vars name t ht := by simp [Scope.enterFunction, var?] at ht
  fns := h.fns
  fields := h.fields

theorem declareVar (h : s.Holds P) {t : CType} (ht : P t) (name : String) :
    (s.declareVar name t).Holds P where
  vars other u hu := by
    simp only [Scope.declareVar, var?, Std.TreeMap.getElem?_insert] at hu
    split at hu
    · cases hu
      exact ht
    · exact h.vars other u hu
  fns := h.fns
  fields := h.fields

theorem declareFn (h : s.Holds P) {sig : Signature} (hsig : P sig.ret) (name : String) :
    (s.declareFn name sig).Holds P where
  vars := h.vars
  fns other sig' hother := by
    simp only [Scope.declareFn, fn?, Std.TreeMap.getElem?_insert] at hother
    split at hother
    · cases hother
      exact hsig
    · exact h.fns other sig' hother
  fields := h.fields

theorem declareStruct (h : s.Holds P) {fs : List (String × CType)} (hfs : ∀ f ∈ fs, P f.2)
    (name : String) : (s.declareStruct name fs).Holds P where
  vars := h.vars
  fns := h.fns
  fields other fs' hother := by
    simp only [Scope.declareStruct, fields?, Std.TreeMap.getElem?_insert] at hother
    split at hother
    · cases hother
      exact hfs
    · exact h.fields other fs' hother

theorem fieldType? (h : s.Holds P) {name field : String} {t : CType}
    (ht : s.fieldType? name field = some t) : P t := by
  obtain ⟨fs, hfs, hlookup⟩ := Option.bind_eq_some_iff.mp ht
  obtain ⟨before, after, hsplit, -⟩ := List.lookup_eq_some_iff.mp hlookup
  exact h.fields name fs hfs (field, t) (by rw [hsplit]; simp)

end Scope.Holds

namespace Inherited

variable {q : NodeKind String Tree → Bool} {P : CType → Prop} {s : Scope}

/-! ### Declared types -/

theorem holds_int (h : Inherited q P) : P .int :=
  h.prim .i64

theorem holds_reference (h : Inherited q P) {t : CType} (ht : P t) : P t.reference := by
  unfold CType.reference
  split
  · exact h.prim .str
  · split
    · exact h.ptr (h.elem ht rfl)
    · exact h.ptr ht

/-- The type of a tree has the property if all its nodes pass. -/
theorem holds_of_ofTree? (h : Inherited q P) {t : Tree} (ht : t.all q = true) {u : CType}
    (hu : CType.ofTree? t = some u) : P u := by
  induction t using Tree.induction generalizing u with
  | step kind span ih =>
    obtain ⟨hkind, hchildren⟩ := Tree.all_node.mp ht
    cases kind with
    | primType p =>
      cases hu
      exact h.prim p
    | namedType name =>
      cases hu
      exact h.named hkind
    | arrayType elem len =>
      obtain ⟨v, hv, rfl⟩ := Option.map_eq_some_iff.mp hu
      have hmem : elem ∈ (.arrayType elem len : NodeKind String Tree).children := by
        simp [NodeKind.children]
      exact h.array len (ih elem hmem (hchildren _ hmem) hv)
    | refType mutable inner =>
      obtain ⟨v, hv, rfl⟩ := Option.map_eq_some_iff.mp hu
      exact h.holds_reference
        (ih inner (by simp [NodeKind.children]) (hchildren _ (by simp [NodeKind.children])) hv)
    | _ => simp [CType.ofTree?] at hu

theorem holds_lower (h : Inherited q P) {t : Tree} (ht : t.all q = true) : P (lower t) := by
  unfold lower
  cases hu : CType.ofTree? t with
  | none => exact h.holds_int
  | some u => exact h.holds_of_ofTree? ht hu

theorem holds_retType (h : Inherited q P) {ret : Option Tree} (hret : ∀ t ∈ ret, t.all q = true)
    (name : String) : P (retType name ret) := by
  unfold retType
  split
  · exact h.prim .i32
  · cases ret with
    | none => exact h.void
    | some t => exact h.holds_lower (hret t rfl)

theorem holds_paramTypes (h : Inherited q P) {params : List Tree}
    (hparams : ∀ t ∈ params, t.all q = true) {param : String × Tree}
    (hparam : param ∈ paramTypes params) : P (lower param.2) := by
  obtain ⟨⟨kind, span⟩, ht, hsome⟩ := List.mem_filterMap.mp hparam
  cases kind with
  | param name mutable type =>
    cases hsome
    exact h.holds_lower ((Tree.all_node.mp (hparams _ ht)).2 type (by simp [NodeKind.children]))
  | _ => cases hsome

theorem holds_fieldTypes (h : Inherited q P) {fields : List Tree}
    (hfields : ∀ t ∈ fields, t.all q = true) {field : String × Tree}
    (hfield : field ∈ fieldTypes fields) : P (lower field.2) := by
  obtain ⟨⟨kind, span⟩, ht, hsome⟩ := List.mem_filterMap.mp hfield
  cases kind with
  | field name type =>
    cases hsome
    exact h.holds_lower ((Tree.all_node.mp (hfields _ ht)).2 type (by simp [NodeKind.children]))
  | _ => cases hsome

/-- An item declares types made of its own. -/
theorem holds_declareItem (h : Inherited q P) (hs : s.Holds P) {t : Tree} (ht : t.all q = true) :
    (declareItem s t).Holds P := by
  obtain ⟨kind, span⟩ := t
  have hchildren := (Tree.all_node.mp ht).2
  cases kind with
  | function name isPublic params ret body =>
    apply hs.declareFn
    apply h.holds_retType
    exact fun t ht => hchildren t (by simp [NodeKind.children, Option.mem_toList.mpr ht])
  | struct name fields =>
    apply hs.declareStruct
    rw [List.forall_mem_map]
    exact fun field => h.holds_fieldTypes hchildren
  | _ => exact hs

theorem holds_declarations (h : Inherited q P) {items : List Tree}
    (hitems : ∀ t ∈ items, t.all q = true) : (declarations items).Holds P := by
  unfold declarations
  apply List.foldlRecOn (motive := Scope.Holds P) items declareItem .empty
  exact fun s hs t ht => h.holds_declareItem hs (hitems t ht)

/-! ### Types of expressions -/

theorem holds_inferFirst (h : Inherited q P) {elems : List Tree}
    (helems : ∀ t ∈ elems, ∀ u, infer s t = some u → P u) : P (inferFirst s elems) := by
  cases elems with
  | nil => exact h.holds_int
  | cons t ts =>
    rw [inferFirst]
    cases hfirst : infer s t with
    | none => exact h.holds_int
    | some u => exact helems t (by simp) u hfirst

/-- A type that is told from an expression has the property. -/
theorem holds_of_infer (h : Inherited q P) (hs : s.Holds P) {t : Tree} (ht : t.all q = true)
    (u : CType) (hu : infer s t = some u) : P u := by
  induction t using Tree.induction generalizing u with
  | step kind span ih =>
    obtain ⟨hkind, hchildren⟩ := Tree.all_node.mp ht
    have hchild (t : Tree) (ht : t ∈ kind.children) (u : CType) (hu : infer s t = some u) :
        P u := ih t ht (hchildren t ht) u hu
    cases kind with
    | int _ =>
      cases hu
      exact h.holds_int
    | float _ =>
      cases hu
      exact h.prim .f64
    | str _ =>
      cases hu
      exact h.prim .str
    | bool _ =>
      cases hu
      exact h.prim .bool
    | char _ =>
      cases hu
      exact h.prim .char
    | ident name => exact hs.vars name u hu
    | binary op lhs rhs =>
      rw [infer] at hu
      split at hu
      · cases hu
        exact h.prim .bool
      · rw [Option.or_eq_some_iff] at hu
        rcases hu with hu | ⟨-, hu⟩
        · exact hchild lhs (by simp [NodeKind.children]) u hu
        · exact hchild rhs (by simp [NodeKind.children]) u hu
    | unary op operand =>
      have hoperand := hchild operand (by simp [NodeKind.children])
      cases op with
      | not =>
        cases hu
        exact h.prim .bool
      | neg => exact hoperand u hu
      | deref =>
        obtain ⟨v, hv, helem⟩ := Option.bind_eq_some_iff.mp hu
        exact h.elem (hoperand v hv) helem
      | ref | refMut =>
        obtain ⟨v, hv, rfl⟩ := Option.map_eq_some_iff.mp hu
        exact h.ptr (hoperand v hv)
    | call callee args =>
      obtain ⟨calleeKind, place⟩ := callee
      cases calleeKind with
      | ident name =>
        rw [infer] at hu
        split at hu
        · next b hb =>
          cases hu
          exact h.builtin b (List.mem_of_find?_eq_some hb)
        · obtain ⟨sig, hsig, rfl⟩ := Option.map_eq_some_iff.mp hu
          exact hs.fns name sig hsig
      | _ => simp [infer] at hu
    | index base place =>
      obtain ⟨v, hv, helem⟩ := Option.bind_eq_some_iff.mp hu
      split at helem
      · cases helem
        exact h.prim .char
      · exact h.elem (hchild base (by simp [NodeKind.children]) v hv) helem
    | fieldAccess base field =>
      obtain ⟨v, hv, hstruct⟩ := Option.bind_eq_some_iff.mp hu
      obtain ⟨name, -, hfield⟩ := Option.bind_eq_some_iff.mp hstruct
      exact hs.fieldType? hfield
    | arrayLit elems =>
      cases hu
      refine h.array _ (h.holds_inferFirst fun t ht => ?_)
      exact hchild t (by simpa [NodeKind.children] using ht)
    | structLit name fields =>
      cases hu
      exact h.literal hkind
    | _ => simp [infer] at hu

/-- The type of a binding is the one written, or that of its value. -/
theorem holds_letType (h : Inherited q P) (hs : s.Holds P) {type init : Option Tree}
    (htype : ∀ t ∈ type, t.all q = true) (hinit : ∀ e ∈ init, e.all q = true) :
    P (letType s type init) := by
  cases type with
  | some t => exact h.holds_lower (htype t rfl)
  | none =>
    cases init with
    | none => exact h.holds_int
    | some e =>
      rw [letType]
      cases hu : infer s e with
      | none => exact h.holds_int
      | some u => exact h.holds_of_infer hs (hinit e rfl) u hu

end Inherited

end Target

end StagedCompiler
