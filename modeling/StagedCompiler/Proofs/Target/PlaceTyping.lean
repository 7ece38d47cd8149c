import StagedCompiler.Proofs.Target.GeneratorRuns

/-!
Types of places and references. The rules here give expressions types of the
source language and know nothing of C. Inference works on C types from the
start, where references to arrays and to strings are no pointers to them
anymore; it still finds the C type of what the rules give, as long as no
reference to an array or a string is made or followed. There it fails.
-/

namespace StagedCompiler.Target

/-- What is declared, with types of the source language: variables, the results
of functions, and the fields of structs, which differ in their names. -/
structure TypeEnv where
  vars : String → Option Tree
  results : String → Option Tree
  structs : String → Option (List (String × Tree))
  distinct : ∀ name fields, structs name = some fields → (fields.map Prod.fst).Nodup

def Lowers (type : Tree) (t : CType) : Prop :=
  CType.ofTree? type = some t

/-- The scope knows all that is declared by the C types it becomes. Of `main`
it has another result. -/
structure TypeEnv.HeldBy (env : TypeEnv) (s : Scope) : Prop where
  var : ∀ name type, env.vars name = some type → ∃ t, Lowers type t ∧ s.var? name = some t
  result : ∀ name type, env.results name = some type → name ≠ "main" →
    ∃ sig, Lowers type sig.ret ∧ s.fn? name = some sig
  fields : ∀ name fields, env.structs name = some fields →
    s.fields? name = some (fields.map fun field => (field.1, lower field.2)) ∧
      ∀ field ∈ fields, ∃ t, Lowers field.2 t

/-- The first type is the second or a reference to it. -/
inductive ReachesType : Tree → Tree → Prop
  | self (type : Tree) : ReachesType type type
  | ref (mutable : Bool) (type : Tree) (span : Span) :
      ReachesType (.node (.refType mutable type) span) type

/-- The type becomes neither an array nor a string. -/
def IsPlainType (type : Tree) : Prop :=
  (∀ elem len, ¬Lowers type (.array elem len)) ∧ ¬Lowers type .string

def refOp (mutable : Bool) : UnaryOp :=
  if mutable then .refMut else .ref

/-- The types of places, references and calls. -/
inductive HasType (env : TypeEnv) : Tree → Tree → Prop
  | var {name : String} {type : Tree} (span : Span) :
      env.vars name = some type → HasType env (.node (.ident name) span) type
  | elem {base whole type : Tree} {len : Nat} {place : Span} (index : Tree) (span : Span) :
      HasType env base whole → ReachesType whole (.node (.arrayType type len) place) →
      HasType env (.node (.index base index) span) type
  | char {base whole : Tree} (index : Tree) (span place : Span) :
      HasType env base whole → Lowers whole .string →
      HasType env (.node (.index base index) span) (.node (.primType .char) place)
  | field {base whole type : Tree} {name field : String} {fields : List (String × Tree)}
      {place : Span} (span : Span) :
      HasType env base whole → ReachesType whole (.node (.namedType name) place) →
      env.structs name = some fields → (field, type) ∈ fields →
      HasType env (.node (.fieldAccess base field) span) type
  | deref {base type : Tree} {mutable : Bool} {place : Span} (span : Span) :
      HasType env base (.node (.refType mutable type) place) → IsPlainType type →
      HasType env (.node (.unary .deref base) span) type
  | ref {base type : Tree} (mutable : Bool) (span place : Span) :
      HasType env base type → IsPlainType type →
      HasType env (.node (.unary (refOp mutable) base) span) (.node (.refType mutable type) place)
  | call {name : String} {type : Tree} (args : List Tree) (span place : Span) :
      env.results name = some type → Builtin.find? name = none → name ≠ "main" →
      HasType env (.node (.call (.node (.ident name) place) args) span) type

/-! ### Lowered types -/

theorem lowers_refType {mutable : Bool} {type : Tree} {span : Span} {t : CType} :
    Lowers (.node (.refType mutable type) span) t ↔ ∃ u, Lowers type u ∧ u.reference = t :=
  Option.map_eq_some_iff

theorem lowers_arrayType {type : Tree} {len : Nat} {span : Span} {t : CType} :
    Lowers (.node (.arrayType type len) span) t ↔ ∃ u, Lowers type u ∧ .array u len = t :=
  Option.map_eq_some_iff

theorem Lowers.unique {type : Tree} {t u : CType} (h : Lowers type t) (h' : Lowers type u) :
    t = u :=
  Option.some.inj (h.symm.trans h')

theorem elem_ne_array (elem : CType) (len : Nat) : elem ≠ .array elem len := by
  intro h
  have hsize := congrArg sizeOf h
  simp only [CType.array.sizeOf_spec] at hsize
  omega

theorem reference_of_plain {t : CType} (harray : ∀ elem len, t ≠ .array elem len)
    (hstring : t ≠ .string) : t.reference = .ptr t := by
  cases t with
  | array elem len => exact absurd rfl (harray elem len)
  | _ => simp [CType.reference, hstring]

/-- Following a reference gives the type back only where references are
pointers. -/
theorem elem?_reference_iff {t : CType} : t.reference.elem? = some t ↔ t.reference = .ptr t := by
  constructor
  · intro h
    apply reference_of_plain
    · rintro elem len rfl
      exact elem_ne_array elem len (Option.some.inj h)
    · rintro rfl
      cases h
  · intro h
    rw [h]
    rfl

/-- References to plain types are pointers to them, and no others are. -/
theorem isPlainType_iff {type : Tree} {t : CType} (h : Lowers type t) :
    IsPlainType type ↔ t.reference = .ptr t := by
  constructor
  · rintro ⟨harray, hstring⟩
    apply reference_of_plain
    · rintro elem len rfl
      exact harray elem len h
    · rintro rfl
      exact hstring h
  · intro href
    constructor
    · intro elem len harray
      obtain rfl := h.unique harray
      exact elem_ne_array elem len (CType.ptr.inj href)
    · intro hstring
      obtain rfl := h.unique hstring
      cases href

/-- An array and a reference to one both hold its elements. -/
theorem ReachesType.elem? {whole type : Tree} {len : Nat} {place : Span} {t : CType}
    (h : ReachesType whole (.node (.arrayType type len) place)) (hwhole : Lowers whole t) :
    t ≠ .string ∧ ∃ u, Lowers type u ∧ t.elem? = some u := by
  cases h with
  | self =>
    obtain ⟨u, hu, rfl⟩ := lowers_arrayType.mp hwhole
    exact ⟨by simp [CType.string], u, hu, rfl⟩
  | ref mutable _ span =>
    obtain ⟨v, hv, rfl⟩ := lowers_refType.mp hwhole
    obtain ⟨u, hu, rfl⟩ := lowers_arrayType.mp hv
    exact ⟨by simp [CType.reference, CType.string], u, hu, rfl⟩

/-- A struct and a reference to one both have its name. -/
theorem ReachesType.structName? {whole : Tree} {name : String} {place : Span} {t : CType}
    (h : ReachesType whole (.node (.namedType name) place)) (hwhole : Lowers whole t) :
    t.structName? = some name := by
  cases h with
  | self =>
    cases hwhole
    rfl
  | ref mutable _ span =>
    obtain ⟨v, hv, rfl⟩ := lowers_refType.mp hwhole
    cases hv
    rfl

/-! ### Fields -/

/-- With distinct names a field is found by its name, and with it its type. -/
theorem lookup_fields {fields : List (String × Tree)} (hdistinct : (fields.map Prod.fst).Nodup)
    {name : String} {type : Tree} (hmem : (name, type) ∈ fields) :
    (fields.map fun field => (field.1, lower field.2)).lookup name = some (lower type) := by
  induction fields with
  | nil => cases hmem
  | cons first fields ih =>
    rw [List.map_cons, List.nodup_cons] at hdistinct
    rcases List.mem_cons.mp hmem with rfl | hmem
    · simp
    · have hne : name ≠ first.1 := by
        rintro rfl
        exact hdistinct.1 (List.mem_map.mpr ⟨_, hmem, rfl⟩)
      rw [List.map_cons, List.lookup_cons, beq_eq_false_iff_ne.mpr hne]
      exact ih hdistinct.2 hmem

/-- The scope knows the lowered type of every declared field. -/
theorem TypeEnv.HeldBy.fieldType? {env : TypeEnv} {s : Scope} (h : env.HeldBy s)
    {name field : String} {fields : List (String × Tree)} {type : Tree}
    (hstruct : env.structs name = some fields) (hmem : (field, type) ∈ fields) :
    ∃ t, Lowers type t ∧ s.fieldType? name field = some t := by
  obtain ⟨hknown, htypes⟩ := h.fields name fields hstruct
  obtain ⟨t, ht⟩ := htypes _ hmem
  have hlookup := lookup_fields (env.distinct name fields hstruct) hmem
  have hlower : lower type = t := by
    rw [lower, ht, Option.getD_some]
  refine ⟨t, ht, ?_⟩
  simp only [Scope.fieldType?, hknown, Option.bind_eq_bind, Option.bind_some]
  rw [hlookup, hlower]

/-! ### Inference -/

theorem infer_refOp (s : Scope) (mutable : Bool) (e : Tree) (span : Span) :
    infer s (.node (.unary (refOp mutable) e) span) = (infer s e).map .ptr := by
  cases mutable <;> simp [refOp, infer]

/-- The type that is inferred for a place is the one that its own type becomes. -/
theorem infer_hasType {env : TypeEnv} {s : Scope} (hheld : env.HeldBy s) {e type : Tree}
    (h : HasType env e type) : ∃ t, Lowers type t ∧ infer s e = some t := by
  induction h with
  | @var name type span hvar =>
    obtain ⟨t, ht, hknown⟩ := hheld.var name type hvar
    exact ⟨t, ht, by rw [infer, hknown]⟩
  | elem index span hbase hreach ih =>
    obtain ⟨t, ht, hinfer⟩ := ih
    obtain ⟨hne, u, hu, helem⟩ := hreach.elem? ht
    exact ⟨u, hu, by simp [infer, hinfer, hne, helem]⟩
  | char index span place hbase hstring ih =>
    obtain ⟨t, ht, hinfer⟩ := ih
    obtain rfl := ht.unique hstring
    exact ⟨.char, rfl, by simp [infer, hinfer]⟩
  | field span hbase hreach hstruct hmem ih =>
    obtain ⟨t, ht, hinfer⟩ := ih
    obtain ⟨u, hu, hfield⟩ := hheld.fieldType? hstruct hmem
    exact ⟨u, hu, by simp [infer, hinfer, hreach.structName? ht, hfield]⟩
  | deref span hbase hplain ih =>
    obtain ⟨t, ht, hinfer⟩ := ih
    obtain ⟨u, hu, rfl⟩ := lowers_refType.mp ht
    -- of a plain type the reference is a pointer, so the element is the type
    rw [(isPlainType_iff hu).mp hplain] at hinfer
    exact ⟨u, hu, by simp [infer, hinfer, CType.elem?]⟩
  | ref mutable span place hbase hplain ih =>
    obtain ⟨t, ht, hinfer⟩ := ih
    refine ⟨.ptr t, lowers_refType.mpr ⟨t, ht, (isPlainType_iff ht).mp hplain⟩, ?_⟩
    rw [infer_refOp, hinfer, Option.map_some]
  | @call name type args span place hresult hbuiltin hmain =>
    obtain ⟨sig, hret, hknown⟩ := hheld.result name type hresult hmain
    exact ⟨sig.ret, hret, by simp [infer, hbuiltin, hknown]⟩

/-- Inference finds the C type of every place, reference and call that the rules
type. The two conditions on references cannot be left out. -/
theorem infer_agrees_with_lowering {env : TypeEnv} {s : Scope} (hheld : env.HeldBy s)
    {e type : Tree} (h : HasType env e type) :
    (∃ t, CType.ofTree? type = some t ∧ infer s e = some t) ∧
    (∀ mutable span place, infer s (.node (.unary (refOp mutable) e) span) =
      CType.ofTree? (.node (.refType mutable type) place) ↔ IsPlainType type) ∧
    ∀ target mutable span place, type = .node (.refType mutable target) place →
      (infer s (.node (.unary .deref e) span) = CType.ofTree? target ↔ IsPlainType target) := by
  obtain ⟨t, ht, hinfer⟩ := infer_hasType hheld h
  refine ⟨⟨t, ht, hinfer⟩, ?_, ?_⟩
  · intro mutable span place
    have href : CType.ofTree? (.node (.refType mutable type) place) = some t.reference :=
      lowers_refType.mpr ⟨t, ht, rfl⟩
    rw [infer_refOp, hinfer, Option.map_some, href, isPlainType_iff ht, Option.some_inj, eq_comm]
  · rintro target mutable span place rfl
    obtain ⟨u, hu, rfl⟩ := lowers_refType.mp ht
    have hderef : infer s (.node (.unary .deref e) span) = u.reference.elem? := by
      simp [infer, hinfer]
    have htarget : CType.ofTree? target = some u := hu
    rw [hderef, htarget, isPlainType_iff hu]
    exact elem?_reference_iff

/-! ### A list of labelled nodes -/

abbrev bareNode (kind : NodeKind String Tree) : Tree :=
  .node kind default

abbrev nodeType : Tree :=
  bareNode (.namedType "Node")

/-- One struct with a link and a label, a variable with some of them, and a
function that finds one. -/
def nodesEnv : TypeEnv where
  vars name := if name = "nodes" then
    some (bareNode (.refType true (bareNode (.arrayType nodeType 4)))) else none
  results name := if name = "find" then some (bareNode (.refType false nodeType)) else none
  structs name := if name = "Node" then
    some [("next", bareNode (.refType false nodeType)), ("label", bareNode (.primType .string))]
    else none
  distinct name fields h := by
    obtain ⟨-, heq⟩ := Option.ite_none_right_eq_some.mp h
    cases heq
    decide

def nodesScope : Scope :=
  ((({} : Scope).declareVar "nodes" (.ptr (.struct "Node"))).declareFn "find"
    ⟨[.string], .ptr (.struct "Node")⟩).declareStruct "Node"
      [("next", .ptr (.struct "Node")), ("label", .string)]

theorem nodesEnv_heldBy : nodesEnv.HeldBy nodesScope where
  var name type h := by
    obtain ⟨rfl, heq⟩ := Option.ite_none_right_eq_some.mp h
    cases heq
    exact ⟨_, rfl, rfl⟩
  result name type h _ := by
    obtain ⟨rfl, heq⟩ := Option.ite_none_right_eq_some.mp h
    cases heq
    exact ⟨⟨[.string], .ptr (.struct "Node")⟩, rfl, rfl⟩
  fields name fields h := by
    obtain ⟨rfl, heq⟩ := Option.ite_none_right_eq_some.mp h
    cases heq
    refine ⟨rfl, ?_⟩
    simp only [List.forall_mem_cons]
    exact ⟨⟨_, rfl⟩, ⟨_, rfl⟩, by simp⟩

abbrev nextNode : Tree :=
  bareNode (.fieldAccess (bareNode (.index (bareNode (.ident "nodes")) (bareNode (.int 1)))) "next")

abbrev firstLetter : Tree :=
  bareNode (.index (bareNode (.fieldAccess
    (bareNode (.unary .refMut (bareNode (.unary .deref nextNode)))) "label")) (bareNode (.int 0)))

abbrev foundLabel : Tree :=
  bareNode (.fieldAccess
    (bareNode (.call (bareNode (.ident "find")) [bareNode (.ident "nodes")])) "label")

theorem infer_agrees_with_lowering_nodes :
    infer nodesScope firstLetter = some .char ∧
    infer nodesScope foundLabel = some .string ∧
    infer nodesScope (bareNode (.unary .ref foundLabel)) ≠
      CType.ofTree? (bareNode (.refType false (bareNode (.primType .string)))) := by
  have hplain : IsPlainType nodeType := by
    constructor
    · intro elem len h
      cases h
    · intro h
      cases h
  have hnext : HasType nodesEnv nextNode (bareNode (.refType false nodeType)) :=
    .field default (.elem _ default (.var default rfl) (.ref true _ default)) (.self nodeType) rfl
      List.mem_cons_self
  have hletter : HasType nodesEnv firstLetter (bareNode (.primType .char)) :=
    .char _ default default (.field default
      (.ref true default default (.deref default hnext hplain) hplain) (.ref true nodeType default)
      rfl (List.mem_cons_of_mem _ List.mem_cons_self)) rfl
  have hlabel : HasType nodesEnv foundLabel (bareNode (.primType .string)) :=
    .field default (.call _ default default rfl (by decide) (by decide))
      (.ref false nodeType default) rfl (List.mem_cons_of_mem _ List.mem_cons_self)
  obtain ⟨⟨t, ht, hinfer⟩, -⟩ := infer_agrees_with_lowering nodesEnv_heldBy hletter
  obtain ⟨⟨u, hu, hinfer'⟩, href, -⟩ := infer_agrees_with_lowering nodesEnv_heldBy hlabel
  cases ht
  cases hu
  refine ⟨hinfer, hinfer', ?_⟩
  intro hsame
  have hstring := (href false default default).mp hsame
  exact hstring.2 rfl

end StagedCompiler.Target
