import StagedCompiler.Proofs.CSyntax.TypeSpelling

/-!
What a declaration declares. A declaration is read as C has it: a base type,
the stars of pointers, the name, and array dimensions with the outermost one
first. Written and read again, a type keeps the dimensions that stand before
any pointer, and every array behind a pointer comes back as a pointer; so
exactly the types without such an array come back as they were. A type of the
source language becomes one with such an array exactly if a reference to an
array of arrays is a part of it.
-/

namespace StagedCompiler

namespace Target.CType

/-- The types that a type is made of, the type itself first. -/
def parts : CType → List CType
  | ptr target => ptr target :: target.parts
  | array elem len => array elem len :: elem.parts
  | t => [t]

/-- An array stands somewhere behind a pointer. -/
def ArrayBehindPtr (t : CType) : Prop :=
  ∃ target elem len, ptr target ∈ t.parts ∧ array elem len ∈ target.parts

/-- The same type with a pointer in place of each array. -/
def decayed : CType → CType
  | ptr target => ptr target.decayed
  | array elem _ => ptr elem.decayed
  | t => t

/-- The same type with a pointer in place of each array behind a pointer. -/
def declared : CType → CType
  | array elem len => array elem.declared len
  | t => t.decayed

theorem parts_subset {t u : CType} (h : u ∈ t.parts) : u.parts ⊆ t.parts := by
  induction t with
  | ptr target ih | array target len ih =>
    rcases List.mem_cons.mp h with rfl | h
    · exact fun v hv => hv
    · exact fun v hv => List.mem_cons_of_mem _ (ih h hv)
  | _ =>
    cases List.mem_singleton.mp h
    exact fun v hv => hv

theorem arrayBehindPtr_ptr {t : CType} :
    (ptr t).ArrayBehindPtr ↔ ∃ elem len, array elem len ∈ t.parts := by
  constructor
  · rintro ⟨target, elem, len, hptr, harray⟩
    refine ⟨elem, len, ?_⟩
    rcases List.mem_cons.mp hptr with heq | hptr
    · cases heq
      exact harray
    · have hinside : array elem len ∈ (ptr target).parts := List.mem_cons_of_mem _ harray
      exact parts_subset hptr hinside
  · rintro ⟨elem, len, harray⟩
    exact ⟨t, elem, len, List.mem_cons_self, harray⟩

theorem arrayBehindPtr_array {t : CType} {len : Nat} :
    (array t len).ArrayBehindPtr ↔ t.ArrayBehindPtr := by
  simp [ArrayBehindPtr, parts]

/-- Only types without arrays stay as they are. -/
theorem decayed_eq_self_iff {t : CType} :
    t.decayed = t ↔ ¬∃ elem len, array elem len ∈ t.parts := by
  induction t with
  | ptr target ih => simp [decayed, parts, ih]
  | array elem len ih =>
    have hthere : array elem len ∈ (array elem len).parts := List.mem_cons_self
    exact iff_of_false (by simp [decayed]) (not_not_intro ⟨elem, len, hthere⟩)
  | _ => simp [decayed, parts]

theorem declared_eq_self_iff {t : CType} : t.declared = t ↔ ¬t.ArrayBehindPtr := by
  induction t with
  | ptr target ih =>
    have hsame : (ptr target).declared = ptr target ↔ target.decayed = target := by
      simp [declared, decayed]
    rw [hsame, arrayBehindPtr_ptr]
    exact decayed_eq_self_iff
  | array elem len ih =>
    rw [arrayBehindPtr_array, ← ih]
    simp [declared]
  | _ => simp [declared, decayed, ArrayBehindPtr, parts]

end Target.CType

/-! ### References to arrays of arrays -/

open Target (CType)

/-- A reference to an array of arrays is a part of the type. -/
inductive RefersToGrid : Tree → Prop
  | here (mutable : Bool) (elem : Tree) (inner outer : Nat) (place place' span : Span) :
      RefersToGrid (.node (.refType mutable
        (.node (.arrayType (.node (.arrayType elem inner) place) outer) place')) span)
  | elem {t : Tree} (len : Nat) (span : Span) :
      RefersToGrid t → RefersToGrid (.node (.arrayType t len) span)
  | target {t : Tree} (mutable : Bool) (span : Span) :
      RefersToGrid t → RefersToGrid (.node (.refType mutable t) span)

namespace Target.CType

/-- A reference is never an array. -/
theorem reference_ne_array (t elem : CType) (len : Nat) : t.reference ≠ array elem len := by
  unfold reference
  split
  · simp [string]
  · split <;> simp

/-- Only array types become arrays. -/
theorem eq_arrayType_of_ofTree? {t : Tree} {elem : CType} {len : Nat}
    (h : ofTree? t = some (array elem len)) :
    ∃ inner span, t = .node (.arrayType inner len) span ∧ ofTree? inner = some elem := by
  obtain ⟨kind, span⟩ := t
  cases kind with
  | primType p => cases p <;> cases h
  | arrayType inner count =>
    obtain ⟨u, hu, heq⟩ := Option.map_eq_some_iff.mp h
    cases heq
    exact ⟨inner, span, rfl, hu⟩
  | refType mutable inner =>
    obtain ⟨u, -, heq⟩ := Option.map_eq_some_iff.mp h
    exact absurd heq (reference_ne_array u elem len)
  | _ => cases h

/-- An array is a part of arrays and of types with one behind a pointer. -/
theorem exists_array_mem_parts_iff {t : CType} :
    (∃ elem len, array elem len ∈ t.parts) ↔
      t.ArrayBehindPtr ∨ ∃ elem len, t = array elem len := by
  cases t with
  | ptr target => simp [arrayBehindPtr_ptr, parts]
  | array elem len =>
    have hthere : array elem len ∈ (array elem len).parts := List.mem_cons_self
    exact iff_of_true ⟨elem, len, hthere⟩ (.inr ⟨elem, len, rfl⟩)
  | _ => simp [ArrayBehindPtr, parts]

theorem arrayBehindPtr_reference {t : CType} :
    t.reference.ArrayBehindPtr ↔
      t.ArrayBehindPtr ∨ ∃ elem inner outer, t = array (array elem inner) outer := by
  cases t with
  | array elem len =>
    have href : (array elem len).reference = ptr elem := rfl
    rw [href, arrayBehindPtr_ptr, arrayBehindPtr_array, exists_array_mem_parts_iff]
    simp
  | ptr target =>
    have href : (ptr target).reference = ptr (ptr target) := rfl
    rw [href, arrayBehindPtr_ptr, exists_array_mem_parts_iff]
    simp
  | named name =>
    by_cases hstring : name = "const char*" <;>
      simp [reference, hstring, ArrayBehindPtr, parts, string]
  | _ => simp [reference, string, ArrayBehindPtr, parts]

/-- Arrays stand behind pointers in a type exactly if its tree refers to an
array of arrays. -/
theorem arrayBehindPtr_iff_refersToGrid {tree : Tree} {t : CType} (h : ofTree? tree = some t) :
    t.ArrayBehindPtr ↔ RefersToGrid tree := by
  induction tree using Tree.induction generalizing t with
  | step kind span ih =>
    cases kind with
    | primType p =>
      cases h
      have hnone : ¬(ofPrim p).ArrayBehindPtr := by
        cases p <;> simp [ofPrim, ArrayBehindPtr, parts]
      exact iff_of_false hnone (fun hgrid => by cases hgrid)
    | namedType name =>
      cases h
      exact iff_of_false (by simp [ArrayBehindPtr, parts]) (fun hgrid => by cases hgrid)
    | arrayType inner len =>
      obtain ⟨elem, helem, rfl⟩ := Option.map_eq_some_iff.mp h
      rw [arrayBehindPtr_array, ih inner (by simp [NodeKind.children]) helem]
      constructor
      · exact .elem len span
      · intro hgrid
        cases hgrid with
        | elem _ _ hgrid => exact hgrid
    | refType mutable inner =>
      obtain ⟨target, htarget, rfl⟩ := Option.map_eq_some_iff.mp h
      rw [arrayBehindPtr_reference, ih inner (by simp [NodeKind.children]) htarget]
      constructor
      · rintro (hgrid | ⟨elem, inside, outside, rfl⟩)
        · exact .target mutable span hgrid
        -- the outer array is lost to the pointer, so the inner one is behind it
        · obtain ⟨row, place, rfl, hrow⟩ := eq_arrayType_of_ofTree? htarget
          obtain ⟨cell, place', rfl, -⟩ := eq_arrayType_of_ofTree? hrow
          exact .here mutable cell inside outside place' place span
      · intro hgrid
        cases hgrid with
        | here _ cell inside outside =>
          obtain ⟨row, hrow, rfl⟩ := Option.map_eq_some_iff.mp htarget
          obtain ⟨elem, -, rfl⟩ := Option.map_eq_some_iff.mp hrow
          exact .inr ⟨elem, inside, outside, rfl⟩
        | target _ _ hgrid => exact .inl hgrid
    | _ => cases h

end Target.CType

/-! ### Reading declarations -/

namespace CSyntax

def isIdentifier (reserved : List String) (name : String) : Bool :=
  isWord name.toList && !reserved.contains name

/-- The types that are written by fixed tokens; of no two are the tokens of one
the first tokens of the other. -/
def plainTypes : List (List Lexeme × CType) :=
  [([.word "void"], .void),
   ([.word "signed", .word "char"], .named "signed char"),
   ([.word "short"], .named "short"),
   ([.word "int"], .named "int"),
   ([.word "long", .word "long"], .named "long long"),
   ([.word "unsigned", .word "char"], .named "unsigned char"),
   ([.word "unsigned", .word "short"], .named "unsigned short"),
   ([.word "unsigned", .word "int"], .named "unsigned int"),
   ([.word "unsigned", .word "long", .word "long"], .named "unsigned long long"),
   ([.word "float"], .named "float"),
   ([.word "double"], .named "double"),
   ([.word "char"], .named "char"),
   ([.word "const", .word "char", .mark .star], .named "const char*")]

def plainType? (ts : List Lexeme) : Option (CType × List Lexeme) :=
  (plainTypes.find? fun entry => entry.1.isPrefixOf ts).map fun entry =>
    (entry.2, ts.drop entry.1.length)

def structType? (reserved : List String) : List Lexeme → Option (CType × List Lexeme)
  | .word keyword :: .word tag :: rest =>
    if keyword = "struct" ∧ isIdentifier reserved tag = true then some (.struct tag, rest) else none
  | _ => none

def pointed (t : CType) : List Lexeme → CType × List Lexeme
  | .mark .star :: rest => pointed (.ptr t) rest
  | rest => (t, rest)

def typeAtFront? (reserved : List String) (ts : List Lexeme) : Option (CType × List Lexeme) :=
  ((plainType? ts).or (structType? reserved ts)).map fun front => pointed front.1 front.2

/-- A type with the dimensions that the tokens are, outermost first. -/
def dimensioned? (t : CType) : List Lexeme → Option CType
  | [] => some t
  | .mark .lbracket :: .number text :: .mark .rbracket :: rest =>
    (integer? text).bind fun len => (dimensioned? t rest).map (.array · len)
  | _ => none

/-- The name at the front, and its type by what stands behind it. -/
def namedWith? (reserved : List String) (t : CType) : List Lexeme → Option (String × CType)
  | .word name :: rest =>
    if isIdentifier reserved name = true then (dimensioned? t rest).map (name, ·) else none
  | _ => none

def declares? (reserved : List String) (text : String) : Option (String × CType) := do
  let ts ← lexemes? text
  let (t, rest) ← typeAtFront? reserved ts
  namedWith? reserved t rest

/-- The types that declarations can name: those built from `void`, scalars and
structs by pointers and arrays. -/
inductive Nameable (reserved : List String) : CType → Prop
  | void : Nameable reserved .void
  | scalar (p : PrimType) : Nameable reserved (.ofPrim p)
  | struct {tag : String} : isIdentifier reserved tag = true → Nameable reserved (.struct tag)
  | ptr {target : CType} : Nameable reserved target → Nameable reserved (.ptr target)
  | array {elem : CType} (len : Nat) : Nameable reserved elem → Nameable reserved (.array elem len)

variable {reserved : List String}

theorem isWord_of_isIdentifier {name : String} (h : isIdentifier reserved name = true) :
    isWord name.toList = true := by
  rw [isIdentifier, Bool.and_eq_true] at h
  exact h.1

/-! ### Types as they are read -/

theorem Nameable.base {t : CType} (h : Nameable reserved t) : Nameable reserved t.base := by
  induction h with
  | scalar p => cases p <;> exact .scalar _
  | array len h ih => exact ih
  | void => exact .void
  | struct htag => exact .struct htag
  | ptr h => exact .ptr h

def typeTokens : CType → List Lexeme
  | .void => [.word "void"]
  | .named name => lexemesOf name
  | .struct tag => [.word "struct", .word tag]
  | .ptr target => typeTokens target ++ [.mark .star]
  | .array elem _ => typeTokens elem ++ [.mark .star]

/-- A nameable type is written as its tokens. -/
theorem spells_render {t : CType} (h : Nameable reserved t) :
    Spells t.render.toList (typeTokens t) (· ∈ typeFollowers) := by
  have hstar : ∀ {t : CType}, Spells t.render.toList (typeTokens t) (· ∈ typeFollowers) →
      Spells (t.render ++ "*").toList (typeTokens t ++ [Lexeme.mark .star])
        (· ∈ typeFollowers) := by
    intro t ht
    rw [String.toList_append]
    exact ht.append spells_star (starts_cons (by decide) _)
  induction h with
  | void => exact (spells_word (by decide)).mono (List.all_eq_true.mp (by decide))
  | scalar p =>
    have hwritable : isWritable (.ofPrim p) = true := by cases p <;> decide
    cases p <;> exact (typeText_named hwritable).spells
  | @struct tag htag =>
    have htext : "struct " ++ tag = " ".intercalate ["struct", tag] := by
      rw [String.intercalate_cons_cons, String.intercalate_singleton]
      rfl
    have hwords : ∀ v ∈ ["struct", tag], isWord v.toList = true := by
      simp only [List.forall_mem_cons]
      exact ⟨by decide, isWord_of_isIdentifier htag, by simp⟩
    have hspells := (spells_words hwords).1
    rw [← htext] at hspells
    exact hspells.mono (List.all_eq_true.mp (by decide))
  | ptr h ih => exact hstar ih
  | array len h ih => exact hstar ih

/-- A type is read with pointers for its arrays, and further stars count. -/
theorem typeAtFront?_typeTokens {t : CType} (h : Nameable reserved t) (rest : List Lexeme) :
    typeAtFront? reserved (typeTokens t ++ rest) = some (pointed t.decayed rest) := by
  induction h generalizing rest with
  | void => rfl
  | scalar p => cases p <;> rfl
  | @struct tag htag =>
    have hplain : plainType? (typeTokens (.struct tag) ++ rest) = none := rfl
    have hstruct : structType? reserved (typeTokens (.struct tag) ++ rest) =
        some (.struct tag, rest) := by
      simp [typeTokens, structType?, htag]
    rw [typeAtFront?, hplain, hstruct]
    rfl
  -- the star of this level is the first of what is behind the level below
  | ptr h ih | array len h ih =>
    rw [typeTokens, List.append_assoc, ih]
    rfl

/-! ### Declarations as they are read -/

theorem dimensioned?_dims {t : CType} :
    dimensioned? t.base.decayed (lexemesOf t.dims) = some t.declared := by
  induction t with
  | array elem len ih =>
    have hts := ((dimsText elem).spells_cons len).lexemesOf_eq
    rw [CType.dims, hts]
    simp only [List.singleton_append, dimensioned?, integer?_toDigits, CType.base, ih]
    rfl
  | _ => rfl

/-- A declaration is read as its name and the type that it declares. -/
theorem declares?_declare {t : CType} (h : Nameable reserved t) {name : String}
    (hname : isIdentifier reserved name = true) :
    declares? reserved (t.declare name) = some (name, t.declared) := by
  have hspells := spells_declarator (spells_render h.base) (isWord_of_isIdentifier hname)
    (dimsText t)
  have hts : lexemes? (t.declare name) = some (typeTokens t.base ++
      .word name :: lexemesOf t.dims) := hspells.lexemes?_eq
  have hread : namedWith? reserved t.base.decayed (.word name :: lexemesOf t.dims) =
      some (name, t.declared) := by
    simp [namedWith?, hname, dimensioned?_dims]
  simp only [declares?, hts, typeAtFront?_typeTokens h.base, Option.bind_eq_bind,
    Option.bind_some]
  exact hread

/-- Written as a declaration and read again, a name keeps its type exactly if no
array stands behind a pointer in it. -/
theorem declare_faithful_iff (reserved : List String) :
    (∀ t name, Nameable reserved t → isIdentifier reserved name = true →
      (declares? reserved (t.declare name) = some (name, t) ↔ ¬t.ArrayBehindPtr)) ∧
    ∀ tree t, CType.ofTree? tree = some t → (t.ArrayBehindPtr ↔ RefersToGrid tree) := by
  constructor
  · intro t name ht hname
    rw [declares?_declare ht hname, ← CType.declared_eq_self_iff]
    simp
  · intro tree t h
    exact CType.arrayBehindPtr_iff_refersToGrid h

def rowsType : Tree :=
  .node (.refType false (.node (.arrayType (.node (.arrayType (.node (.primType .i64) default) 2)
    default) 3) default)) default

theorem declare_faithful_slots :
    declares? keywords ((CType.array (.ptr (.struct "Node")) 4).declare "slots") =
      some ("slots", .array (.ptr (.struct "Node")) 4) ∧
    declares? keywords ((CType.ptr (.array .int 2)).declare "rows") ≠
      some ("rows", .ptr (.array .int 2)) ∧
    RefersToGrid rowsType := by
  obtain ⟨hread, hsource⟩ := declare_faithful_iff keywords
  have hrows : (CType.ptr (.array .int 2)).ArrayBehindPtr :=
    CType.arrayBehindPtr_ptr.mpr ⟨.int, 2, List.mem_cons_self⟩
  have hslots : ¬(CType.array (.ptr (.struct "Node")) 4).ArrayBehindPtr := by
    rw [CType.arrayBehindPtr_array, CType.arrayBehindPtr_ptr]
    simp [CType.parts]
  refine ⟨?_, ?_, ?_⟩
  · exact (hread _ _ (.array 4 (.ptr (.struct (by decide)))) (by decide)).mpr hslots
  · intro hsame
    exact (hread _ _ (.ptr (.array 2 (.scalar .i64))) (by decide)).mp hsame hrows
  · exact (hsource rowsType _ rfl).mp hrows

end CSyntax

end StagedCompiler
