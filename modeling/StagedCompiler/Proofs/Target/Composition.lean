import StagedCompiler.Proofs.Parser.ModeAgreement
import StagedCompiler.Proofs.Target.Unplaced
import StagedCompiler.Proofs.Tree.Forest
import StagedCompiler.Proofs.Tree.Store

/-!
The text of a unit is put together of the texts of its items. What an item
becomes depends on the item and on what the unit declares, and nothing that is
met in the body of a function is known in another one. So a change to one body
leaves all other texts as they are.
-/

namespace StagedCompiler

namespace Target

open StagedCompiler.Tree

/-- A function's body, written from what the unit declares and the parameters. -/
def bodyText (globals : Scope) (inMain : Bool) (params : List Tree) (body : Tree) : String :=
  let entered : WriterState := ((declareParams (paramTypes params)).run
    { scope := globals.enterFunction }).2
  String.join ((stmt inMain true 1 body).run { scope := entered.scope }).2.lines.toList

structure ItemText where
  typedef : String := ""
  prototype : String := ""
  definition : String := ""

/-- Structs are defined, and functions are declared by the head of their
definition, but for `main`. Nothing else is written. -/
def itemText (globals : Scope) : Tree → ItemText
  | .node (.struct name _) _ => { typedef := typedefText name ((globals.fields? name).getD []) }
  | .node (.function name _ params ret body) _ =>
    let header := signature name params ret
    let isMain := decide (name = "main")
    { prototype := if isMain then "" else header ++ ";\n"
      definition := header ++ " \x7b\n" ++ bodyText globals isMain params body ++
        (if isMain then "    return 0;\n" else "") ++ "\x7d\n\n" }
  | _ => {}

/-- A unit of its parts. A blank line ends the prototypes, if there are any. -/
def unitText (support : SupportForm) (items : List ItemText) : String :=
  let prototypes := String.join (items.map (·.prototype))
  Support.headers ++ "\n" ++ supportText support ++ "\n" ++
    String.join (items.map (·.typedef)) ++
    (if prototypes = "" then "" else prototypes ++ "\n") ++
    String.join (items.map (·.definition))

def structName? : Tree → Option String
  | .node (.struct name _) _ => some name
  | _ => none

/-! ### Texts of items -/

theorem declareParams_lines (params : List (String × Tree)) (st : WriterState) :
    ((declareParams params).run st).2.lines = st.lines := by
  induction params generalizing st with
  | nil => rfl
  | cons param params ih => exact ih _

def openedFunction (s : Scope) (name : String) (params : List Tree) (ret : Option Tree) :
    WriterState :=
  ((do declareParams (paramTypes params)
       Writer.note (signatureNotes name params ret)
       Writer.line 0 (signature name params ret ++ " \x7b") : Writer Unit).run
    { scope := s.enterFunction }).2

theorem openedFunction_lines (s : Scope) (name : String) (params : List Tree)
    (ret : Option Tree) :
    (openedFunction s name params ret).lines = #[signature name params ret ++ " \x7b\n"] := by
  have hline : (openedFunction s name params ret).lines =
      ((declareParams (paramTypes params)).run { scope := s.enterFunction }).2.lines.push
        (String.ofList (List.replicate (4 * 0) ' ') ++ (signature name params ret ++ " \x7b") ++
          "\n") := rfl
  have hopen : " \x7b\n" = " \x7b" ++ "\n" := rfl
  rw [hline, declareParams_lines, hopen]
  simp [String.append_assoc]

theorem body_lines (s : Scope) (name : String) (params : List Tree) (ret : Option Tree)
    (body : Tree) (inMain : Bool) :
    String.join ((stmt inMain true 1 body).run (openedFunction s name params ret)).2.lines.toList =
      signature name params ret ++ " \x7b\n" ++ bodyText s inMain params body := by
  rw [((followed body).stmt inMain true 1).additive.run, WriterState.followedBy,
    openedFunction_lines, Array.toList_append, String.join_append]
  simp only [String.join_cons, String.join_nil, String.append_empty]
  rfl

/-- The text of a function: its head, its body, and the exit code of `main`. -/
theorem functionState_lines (s : Scope) (name : String) (params : List Tree) (ret : Option Tree)
    (body : Tree) :
    String.join (functionState s name params ret body).lines.toList =
      signature name params ret ++ " \x7b\n" ++ bodyText s (name = "main") params body ++
        (if name = "main" then "    return 0;\n" else "") ++ "\x7d\n\n" := by
  have hbody := body_lines s name params ret body (name = "main")
  have hclose : "\x7d\n\n" = "\x7d\n" ++ "\n" := rfl
  by_cases hmain : name = "main"
  · have hlines : (functionState s name params ret body).lines =
        ((((stmt (name = "main") true 1 body).run (openedFunction s name params ret)).2.lines.push
          "    return 0;\n").push "\x7d\n").push "\n" := by
      unfold functionState functionWriter
      rw [if_pos hmain]
      rfl
    rw [hlines, if_pos hmain, hclose, ← hbody]
    simp [String.append_assoc]
  · have hlines : (functionState s name params ret body).lines =
        ((((stmt (name = "main") true 1 body).run (openedFunction s name params ret)).2.lines).push
          "\x7d\n").push "\n" := by
      unfold functionState functionWriter
      rw [if_neg hmain]
      rfl
    rw [hlines, if_neg hmain, hclose, ← hbody]
    simp

theorem definitionText_eq (s : Scope) (t : Tree) :
    definitionText s t = (itemText s t).definition := by
  obtain ⟨kind, span⟩ := t
  cases kind with
  | function name isPublic params ret body =>
    simp only [definitionText, itemText, functionState_lines, decide_eq_true_eq]
  | _ => rfl

/-- Items that are left out of a text can as well be written as nothing. -/
theorem join_filterMap {f : Tree → Option String} {g : Tree → String}
    (h : ∀ t, (f t).getD "" = g t) (items : List Tree) :
    String.join (items.filterMap f) = String.join (items.map g) := by
  induction items with
  | nil => rfl
  | cons t items ih =>
    rw [List.map_cons, String.join_cons, ← h t, ← ih]
    cases hf : f t with
    | none => rw [List.filterMap_cons_none hf, Option.getD_none, String.empty_append]
    | some text => rw [List.filterMap_cons_some hf, String.join_cons, Option.getD_some]

theorem typedefOf_eq (s : Scope) (t : Tree) : typedefOf s t = (itemText s t).typedef := by
  obtain ⟨kind, span⟩ := t
  cases kind <;> rfl

theorem lines_prototypes (s : Scope) (items : List Tree) :
    Support.lines (prototypes items) =
      String.join (items.map fun t => (itemText s t).prototype) := by
  rw [Support.lines, prototypes, List.map_filterMap]
  apply join_filterMap
  rintro ⟨kind, span⟩
  cases kind with
  | function name isPublic params ret body =>
    have hend : ";\n" = ";" ++ "\n" := rfl
    by_cases hmain : name = "main"
    · simp [itemText, hmain]
    · simp [itemText, hmain, hend, String.append_assoc]
  | _ => rfl

theorem lines_eq_empty {ls : List String} : Support.lines ls = "" ↔ ls.isEmpty = true := by
  cases ls with
  | nil => simp [Support.lines]
  | cons l ls =>
    have hne : Support.lines (l :: ls) ≠ "" := by
      intro hempty
      have hchars := congrArg String.toList hempty
      simp [Support.lines] at hchars
    simp [hne]

/-- A program is written as its items are. -/
theorem render_eq (program : Tree) (support : SupportForm) :
    (render program support).c =
      unitText support (program.items.map (itemText (declarations program.items))) := by
  have hprototypes : (if (prototypes program.items).isEmpty then ""
      else Support.lines (prototypes program.items) ++ "\n") =
      if Support.lines (prototypes program.items) = "" then ""
      else Support.lines (prototypes program.items) ++ "\n" := by
    simp only [lines_eq_empty]
  have hdefinitions : program.items.map (definitionText (declarations program.items)) =
      program.items.map fun t => (itemText (declarations program.items) t).definition :=
    List.map_congr_left fun t _ => definitionText_eq _ t
  have htypedefs : program.items.map (typedefOf (declarations program.items)) =
      program.items.map fun t => (itemText (declarations program.items) t).typedef :=
    List.map_congr_left fun t _ => typedefOf_eq _ t
  rw [(render_parts program support).1, htypedefs, hprototypes, hdefinitions,
    lines_prototypes (declarations program.items) program.items, unitText]
  simp only [List.map_map, Function.comp_def, String.append_assoc]

/-! ### What an item's text depends on -/

section

variable {s s' : Scope}

theorem paramTypes_unplaced (params : List Tree) :
    paramTypes (params.map unplaced) =
      (paramTypes params).map fun param => (param.1, param.2.unplaced) := by
  rw [paramTypes, paramTypes, List.filterMap_map, List.map_filterMap]
  apply List.filterMap_congr
  rintro ⟨kind, span⟩ -
  cases kind <;> rfl

theorem fieldTypes_unplaced (fields : List Tree) :
    fieldTypes (fields.map unplaced) =
      (fieldTypes fields).map fun field => (field.1, field.2.unplaced) := by
  rw [fieldTypes, fieldTypes, List.filterMap_map, List.map_filterMap]
  apply List.filterMap_congr
  rintro ⟨kind, span⟩ -
  cases kind <;> rfl

theorem retType_unplaced (name : String) (ret : Option Tree) :
    retType name (ret.map unplaced) = retType name ret := by
  simp [retType, Function.comp_def]

theorem signature_unplaced (name : String) (params : List Tree) (ret : Option Tree) :
    signature name (params.map unplaced) (ret.map unplaced) = signature name params ret := by
  simp [signature, paramTypes_unplaced, retType_unplaced, Function.comp_def]

theorem declareParams_alike (params : List (String × Tree)) :
    Alike (declareParams params)
      (declareParams (params.map fun param => (param.1, param.2.unplaced))) := by
  induction params with
  | nil => exact alike_pure _
  | cons param params ih =>
    simp only [List.map_cons, declareParams, lower_unplaced]
    apply (alike_note _ _).bind
    intro _
    apply (alike_declareVar _ _).bind
    exact fun _ => ih

/-- A body is written from its tree without places, and from a scope by what it
answers. -/
theorem bodyText_unplaced (hfn : ∀ name, s.fn? name = s'.fn? name)
    (hfields : ∀ name, s.fields? name = s'.fields? name) (inMain : Bool) (params : List Tree)
    (body : Tree) :
    bodyText s inMain params body =
      bodyText s' inMain (params.map unplaced) body.unplaced := by
  have hentered := (declareParams_alike (paramTypes params)) { scope := s.enterFunction }
    { scope := s'.enterFunction } (Scope.same_enterFunction hfn hfields) rfl
  rw [← paramTypes_unplaced] at hentered
  have hbody := ((writtenAlike body).stmt inMain true 1) { scope := _ } { scope := _ }
    hentered.2.1 rfl
  unfold bodyText
  dsimp only
  rw [hbody.2.2]

/-- The text of an item depends on the item, but for its places, and on the
functions and structs that are declared. -/
theorem itemText_unplaced (hfn : ∀ name, s.fn? name = s'.fn? name)
    (hfields : ∀ name, s.fields? name = s'.fields? name) (t : Tree) :
    itemText s t = itemText s' t.unplaced := by
  obtain ⟨kind, span⟩ := t
  cases kind with
  | struct name fields => simp only [unplaced, unplacedKind, itemText, hfields]
  | function name isPublic params ret body =>
    simp only [unplaced, unplacedKind, unplacedList_eq, unplacedOption_eq, itemText,
      signature_unplaced, bodyText_unplaced hfn hfields]
  | _ => rfl

/-- Declaring an item does not look at places. -/
theorem declareItem_unplaced (h : s.Same s') (t : Tree) :
    (declareItem s t).Same (declareItem s' t.unplaced) := by
  obtain ⟨kind, span⟩ := t
  cases kind with
  | struct name fields =>
    simp only [unplaced, unplacedKind, unplacedList_eq, declareItem, fieldTypes_unplaced,
      List.map_map, Function.comp_def, lower_unplaced]
    exact h.declareStruct _ _
  | function name isPublic params ret body =>
    simp only [unplaced, unplacedKind, unplacedList_eq, unplacedOption_eq, declareItem,
      paramTypes_unplaced, retType_unplaced, List.map_map, Function.comp_def, lower_unplaced]
    exact h.declareFn _ _
  | _ => exact h

theorem declarations_unplaced (items : List Tree) :
    (declarations items).Same (declarations (items.map unplaced)) := by
  have hfold (s s' : Scope) (h : s.Same s') :
      (items.foldl declareItem s).Same ((items.map unplaced).foldl declareItem s') := by
    induction items generalizing s s' with
    | nil => exact h
    | cons t items ih => exact ih _ _ (declareItem_unplaced h t)
  exact hfold {} {} (.refl _)

end

/-! ### Names that are declared once -/

section

variable {β : Type} {key? : Tree → Option String} {f : Scope → Option β} {name : String}

/-- Items of other names leave what is found under a name as it is. -/
theorem find_foldl_of_notMem
    (hother : ∀ s t, key? t ≠ some name → f (declareItem s t) = f s) {items : List Tree}
    (h : name ∉ items.filterMap key?) (s : Scope) : f (items.foldl declareItem s) = f s := by
  induction items generalizing s with
  | nil => rfl
  | cons t items ih =>
    have hkey : key? t ≠ some name := by
      intro hkey
      exact h (List.mem_filterMap.mpr ⟨t, List.mem_cons_self, hkey⟩)
    have hrest : name ∉ items.filterMap key? := by
      intro hmem
      obtain ⟨u, hu, hname⟩ := List.mem_filterMap.mp hmem
      exact h (List.mem_filterMap.mpr ⟨u, List.mem_cons_of_mem _ hu, hname⟩)
    rw [List.foldl_cons, ih hrest, hother s t hkey]

/-- What an item declares under a name that is not used again is found there. -/
theorem find_declarations
    (hother : ∀ s t, key? t ≠ some name → f (declareItem s t) = f s) {items : List Tree}
    (hdistinct : (items.filterMap key?).Nodup) {t : Tree} (hmem : t ∈ items)
    (hkey : key? t = some name) {v : β} (hset : ∀ s, f (declareItem s t) = some v) :
    f (declarations items) = some v := by
  have hfold (s : Scope) : f (items.foldl declareItem s) = some v := by
    induction items generalizing s with
    | nil => cases hmem
    | cons u items ih =>
      rw [List.foldl_cons]
      rcases List.mem_cons.mp hmem with rfl | hmem
      · rw [List.filterMap_cons_some hkey, List.nodup_cons] at hdistinct
        rw [find_foldl_of_notMem hother hdistinct.1, hset]
      · apply ih _ hmem
        rw [List.filterMap_cons] at hdistinct
        split at hdistinct
        · exact hdistinct
        · exact (List.nodup_cons.mp hdistinct).2
  exact hfold {}

end

/-- A struct whose name is not used again has the fields it was declared with. -/
theorem fields?_declarations {items : List Tree} (hdistinct : (items.filterMap structName?).Nodup)
    {name : String} {fields : List Tree} {span : Span}
    (hmem : .node (.struct name fields) span ∈ items) :
    (declarations items).fields? name =
      some ((fieldTypes fields).map fun field => (field.1, lower field.2)) := by
  apply find_declarations (f := fun s => s.fields? name) _ hdistinct hmem rfl
  · intro s
    simp [declareItem, Scope.declareStruct, Scope.fields?]
  · intro s t hother
    obtain ⟨kind, place⟩ := t
    cases kind with
    | struct other members =>
      have hne : other ≠ name := fun heq => hother (congrArg some heq)
      simp [declareItem, Scope.declareStruct, Scope.fields?, Std.TreeMap.getElem?_insert, hne]
    | _ => rfl

def functionName? : Tree → Option String
  | .node (.function name ..) _ => some name
  | _ => none

/-- A function whose name is not used again has the signature it was declared
with. -/
theorem fn?_declarations {items : List Tree} (hdistinct : (items.filterMap functionName?).Nodup)
    {name : String} {isPublic : Bool} {params : List Tree} {ret : Option Tree} {body : Tree}
    {span : Span} (hmem : .node (.function name isPublic params ret body) span ∈ items) :
    (declarations items).fn? name =
      some ⟨(paramTypes params).map fun param => lower param.2, retType name ret⟩ := by
  apply find_declarations (f := fun s => s.fn? name) _ hdistinct hmem rfl
  · intro s
    simp [declareItem, Scope.declareFn, Scope.fn?]
  · intro s t hother
    obtain ⟨kind, place⟩ := t
    cases kind with
    | function other =>
      have hne : other ≠ name := fun heq => hother (congrArg some heq)
      simp [declareItem, Scope.declareFn, Scope.fn?, Std.TreeMap.getElem?_insert, hne]
    | _ => rfl

end Target

/-! ### Units -/

namespace Ast

def itemTrees (ast : Ast) : List Tree :=
  ast.items.map (ast.arena.treeOf ast.names)

def globals (ast : Ast) : Target.Scope :=
  Target.declarations ast.itemTrees

def itemTexts (ast : Ast) : List Target.ItemText :=
  ast.itemTrees.map (Target.itemText ast.globals)

def fieldsOf (ast : Ast) (children : List NodeId) : List (String × Target.CType) :=
  children.filterMap fun (child : NodeId) =>
    match ast.arena.nodes[child]? with
    | some ⟨.field name type, _⟩ =>
      some (ast.names.resolve name, Target.lower (ast.arena.treeOf ast.names type))
    | _ => none

def structNames (ast : Ast) : List String :=
  ast.items.filterMap fun (item : NodeId) =>
    match ast.arena.nodes[item]? with
    | some ⟨.struct name _, _⟩ => some (ast.names.resolve name)
    | _ => none

/-- The items of two units are the same but for their places, and but for the
body of the `k`-th, which is a function in both. -/
def SameButBody (k : Nat) (ast ast' : Ast) : Prop :=
  ∃ before after name isPublic params ret body body', before.length = k ∧
    ast.itemTrees.map Tree.unplaced =
      before ++ Tree.node (.function name isPublic params ret body) {} :: after ∧
    ast'.itemTrees.map Tree.unplaced =
      before ++ Tree.node (.function name isPublic params ret body') {} :: after

variable {ast ast' : Ast}

/-- The items of the tree are the trees of the items. -/
theorem tree_items (h : ast.arena.Ordered) : ast.tree.items = ast.itemTrees := by
  unfold itemTrees items
  cases hroot : ast.arena.nodes[ast.root]? with
  | none =>
    have hsize : (ast.arena.trees ast.names).size ≤ ast.root := by
      rw [Arena.size_trees]
      exact Array.getElem?_eq_none_iff.mp hroot
    simp [tree, Array.getD_eq_getD_getElem?, Array.getElem?_eq_none hsize, Tree.empty, Tree.items]
  | some n =>
    change (ast.arena.treeOf ast.names ast.root).items = _
    rw [Arena.treeOf_node h hroot]
    obtain ⟨kind, span⟩ := n
    cases kind <;> rfl

theorem fieldTypes_eq (h : ast.arena.Ordered) (children : List NodeId)
    (hthere : ∀ child ∈ children, ∃ n, ast.arena.nodes[child]? = some n) :
    (Target.fieldTypes (children.map (ast.arena.treeOf ast.names))).map
      (fun field => (field.1, Target.lower field.2)) = ast.fieldsOf children := by
  unfold Target.fieldTypes fieldsOf
  rw [List.filterMap_map, List.map_filterMap]
  apply List.filterMap_congr
  intro child hchild
  obtain ⟨⟨kind, span⟩, hn⟩ := hthere child hchild
  rw [Function.comp_apply, Arena.treeOf_node h hn, hn]
  cases kind <;> rfl

theorem item_node (h : ast.arena.Ordered) {item : NodeId} (hitem : item ∈ ast.items) :
    ∃ n, ast.arena.nodes[item]? = some n := by
  unfold items at hitem
  split at hitem
  · next items span hroot => exact h.child_node hroot hitem
  · cases hitem

theorem structNames_eq (h : ast.arena.Ordered) :
    ast.itemTrees.filterMap Target.structName? = ast.structNames := by
  unfold itemTrees structNames
  rw [List.filterMap_map]
  apply List.filterMap_congr
  intro item hitem
  obtain ⟨⟨kind, span⟩, hn⟩ := item_node h hitem
  rw [Function.comp_apply, Arena.treeOf_node h hn, hn]
  cases kind <;> rfl

/-- With distinct names, the definition of a struct lists its own fields. -/
theorem typedef_eq (h : ast.arena.Ordered) (hdistinct : ast.structNames.Nodup) {item : NodeId}
    {name : Symbol} {fields : List NodeId} {span : Span} (hitem : item ∈ ast.items)
    (hn : ast.arena.nodes[item]? = some ⟨.struct name fields, span⟩) :
    (Target.itemText ast.globals (ast.arena.treeOf ast.names item)).typedef =
      Target.typedefText (ast.names.resolve name) (ast.fieldsOf fields) := by
  have htree : ast.arena.treeOf ast.names item = _ := Arena.treeOf_node h hn
  have hmem : ast.arena.treeOf ast.names item ∈ ast.itemTrees := List.mem_map_of_mem hitem
  rw [htree] at hmem
  have hdeclared : ast.globals.fields? (ast.names.resolve name) = some (ast.fieldsOf fields) := by
    rw [globals, Target.fields?_declarations _ hmem, fieldTypes_eq h]
    · exact fun child hchild => h.child_node hn hchild
    · rw [structNames_eq h]
      exact hdistinct
  rw [htree]
  simp only [NodeKind.map, Target.itemText, hdeclared, Option.getD_some]

theorem itemText_of_unplaced (hfn : ∀ name, ast.globals.fn? name = ast'.globals.fn? name)
    (hfields : ∀ name, ast.globals.fields? name = ast'.globals.fields? name) {t t' : Tree}
    (h : t.unplaced = t'.unplaced) :
    Target.itemText ast.globals t = Target.itemText ast'.globals t' := by
  rw [Target.itemText_unplaced hfn hfields t, h]
  exact (Target.itemText_unplaced (fun _ => rfl) (fun _ => rfl) t').symm

/-- A body declares nothing to the rest of the unit. -/
theorem SameButBody.globals {k : Nat} (h : SameButBody k ast ast') :
    ast.globals.Same ast'.globals := by
  obtain ⟨before, after, name, isPublic, params, ret, body, body', -, htrees, htrees'⟩ := h
  have hsame := Target.declarations_unplaced ast.itemTrees
  have hsame' := Target.declarations_unplaced ast'.itemTrees
  have hdeclared : Target.declarations (ast.itemTrees.map Tree.unplaced) =
      Target.declarations (ast'.itemTrees.map Tree.unplaced) := by
    rw [htrees, htrees']
    simp only [Target.declarations, List.foldl_append, List.foldl_cons]
    rfl
  rw [hdeclared] at hsame
  exact hsame.trans hsame'.symm

theorem itemTexts_unplaced (hsame : ast.globals.Same ast'.globals) :
    ast.itemTexts = (ast.itemTrees.map Tree.unplaced).map (Target.itemText ast'.globals) := by
  unfold itemTexts
  rw [List.map_map]
  exact List.map_congr_left fun t _ => Target.itemText_unplaced hsame.fn hsame.fields t

/-- A change to one body changes one definition at most. -/
theorem SameButBody.itemTexts {k : Nat} (h : SameButBody k ast ast') :
    ast.itemTexts.map (·.typedef) = ast'.itemTexts.map (·.typedef) ∧
      ast.itemTexts.map (·.prototype) = ast'.itemTexts.map (·.prototype) ∧
      ∀ i, i ≠ k → ast.itemTexts[i]? = ast'.itemTexts[i]? := by
  have htexts := itemTexts_unplaced h.globals
  have htexts' := itemTexts_unplaced (.refl ast'.globals)
  obtain ⟨before, after, name, isPublic, params, ret, body, body', rfl, htrees, htrees'⟩ := h
  rw [htrees] at htexts
  rw [htrees'] at htexts'
  rw [htexts, htexts']
  simp only [List.map_append, List.map_cons, List.map_map]
  refine ⟨rfl, rfl, ?_⟩
  intro i hi
  rcases Nat.lt_or_gt_of_ne hi with hlt | hgt
  · rw [List.getElem?_append_left (by simpa), List.getElem?_append_left (by simpa)]
  · rw [List.getElem?_append_right (by simpa using Nat.le_of_lt hgt),
      List.getElem?_append_right (by simpa using Nat.le_of_lt hgt)]
    obtain ⟨j, hj⟩ : ∃ j, i - (before.map (Target.itemText ast'.globals)).length = j + 1 :=
      ⟨i - before.length - 1, by rw [List.length_map]; omega⟩
    rw [hj, List.getElem?_cons_succ, List.getElem?_cons_succ]

end Ast

/-- The text of a unit is put together of fixed parts and of what each item
becomes, in the order of the items. With distinct names every struct is defined
with its own fields. What an item becomes depends on the item and on the
functions and structs of the unit, places apart; so if two units differ in the
body of one function only, the definition of that function is all that differs
between their texts. -/
theorem generation_compositional {ast : Ast} (h : ast.arena.Ordered) :
    (∀ opts : Options, ∃ g, Target.generate ast (opts.inMode .lenient) = .ok g) ∧
    (∀ opts g, Target.generate ast opts = .ok g →
      g.c = Target.unitText opts.support ast.itemTexts) ∧
    (ast.structNames.Nodup → ∀ (i : Nat) item name fields span, ast.items[i]? = some item →
      ast.arena.nodes[item]? = some ⟨.struct name fields, span⟩ →
        ast.itemTexts[i]?.map (·.typedef) =
          some (Target.typedefText (ast.names.resolve name) (ast.fieldsOf fields))) ∧
    ∀ ast' : Ast,
      ((∀ name, ast.globals.fn? name = ast'.globals.fn? name) →
        (∀ name, ast.globals.fields? name = ast'.globals.fields? name) →
          ∀ (i i' : Nat) t t', ast.itemTrees[i]? = some t → ast'.itemTrees[i']? = some t' →
            t.unplaced = t'.unplaced → ast.itemTexts[i]? = ast'.itemTexts[i']?) ∧
      ∀ k, ast.SameButBody k ast' →
        ast.itemTexts.map (·.typedef) = ast'.itemTexts.map (·.typedef) ∧
        ast.itemTexts.map (·.prototype) = ast'.itemTexts.map (·.prototype) ∧
        ∀ i, i ≠ k → ast.itemTexts[i]? = ast'.itemTexts[i]? := by
  refine ⟨?_, ?_, ?_, ?_⟩
  · exact fun opts => ⟨_, generate_lenient opts ast⟩
  · intro opts g hg
    have hrender : g = Target.render ast.tree opts.support := by
      unfold Target.generate Target.Generated.accept at hg
      split at hg
      · cases hg
      · exact (Except.ok.inj hg).symm
    rw [hrender, Target.render_eq, Ast.tree_items h]
    rfl
  · intro hdistinct i item name fields span hitem hn
    have htext : ast.itemTexts[i]? =
        some (Target.itemText ast.globals (ast.arena.treeOf ast.names item)) := by
      simp [Ast.itemTexts, Ast.itemTrees, hitem]
    rw [htext, Option.map_some, Ast.typedef_eq h hdistinct (List.mem_of_getElem? hitem) hn]
  · intro ast'
    constructor
    · intro hfn hfields i i' t t' ht ht' hsame
      simp only [Ast.itemTexts, List.getElem?_map, ht, ht', Option.map_some,
        Ast.itemText_of_unplaced hfn hfields hsame]
    · exact fun k hk => hk.itemTexts

/-- A struct `P` with a field `x`, and a function `f` with the given body, which
ends the list of its nodes. -/
def sampleUnit (body : List Node) : Ast where
  arena := { nodes := nodes.toArray, maxNodes := 100, maxChildren := 100 }
  names := ((Interner.empty.append "P" (by decide +kernel)).append "x" (by decide +kernel)).append
    "f" (by decide +kernel)
  root := body.length + 4
where
  nodes : List Node :=
    [⟨.primType .i64, {}⟩, ⟨.field 1 0, {}⟩, ⟨.struct 0 [1], {}⟩] ++ (body ++
      [⟨.function 2 false [] none (body.length + 2), {}⟩, ⟨.program [2, body.length + 3], {}⟩])

def samplePoint : Tree :=
  .node (.struct "P" [.node (.field "x" (.node (.primType .i64) {})) {}]) {}

theorem treeOf_sampleUnit {body : List Node} (h : (sampleUnit body).arena.Ordered) :
    (sampleUnit body).arena.treeOf (sampleUnit body).names 2 = samplePoint := by
  have htype : (sampleUnit body).arena.treeOf (sampleUnit body).names 0 =
      .node (.primType .i64) {} := Arena.treeOf_node h (n := ⟨.primType .i64, {}⟩) rfl
  have hfield : (sampleUnit body).arena.treeOf (sampleUnit body).names 1 =
      .node (.field "x" (.node (.primType .i64) {})) {} := by
    rw [← htype]
    exact Arena.treeOf_node h (n := ⟨.field 1 0, {}⟩) rfl
  unfold samplePoint
  rw [← hfield]
  exact Arena.treeOf_node h (n := ⟨.struct 0 [1], {}⟩) rfl

theorem itemTrees_sampleUnit {body : List Node} (h : (sampleUnit body).arena.Ordered) :
    ∃ tree, (sampleUnit body).itemTrees =
      [samplePoint, .node (.function "f" false [] none tree) {}] := by
  have hfunction : (sampleUnit body).arena.nodes[body.length + 3]? =
      some ⟨.function 2 false [] none (body.length + 2), {}⟩ := by
    simp [sampleUnit, sampleUnit.nodes]
  have hroot : (sampleUnit body).items = [2, body.length + 3] := by
    have hnode : (sampleUnit body).arena.nodes[(sampleUnit body).root]? =
        some ⟨.program [2, body.length + 3], {}⟩ := by
      simp [sampleUnit, sampleUnit.nodes]
    simp only [Ast.items, hnode]
  refine ⟨(sampleUnit body).arena.treeOf (sampleUnit body).names (body.length + 2), ?_⟩
  rw [Ast.itemTrees, hroot, List.map_cons, treeOf_sampleUnit h, List.map_cons,
    Arena.treeOf_node h hfunction]
  rfl

/-- The struct is defined with its field, whatever the body of `f` is. -/
theorem generation_compositional_sample :
    (sampleUnit [⟨.block [], {}⟩]).arena.Ordered ∧
    (sampleUnit [⟨.block [], {}⟩]).itemTexts[0]?.map (·.typedef) =
      some (Target.typedefText "P" [("x", .int)]) ∧
    (sampleUnit [⟨.block [], {}⟩]).itemTexts[0]? =
      (sampleUnit [⟨.breakStmt, {}⟩, ⟨.block [3], {}⟩]).itemTexts[0]? := by
  have hordered : (sampleUnit [⟨.block [], {}⟩]).arena.Ordered := by decide +kernel
  have hordered' : (sampleUnit [⟨.breakStmt, {}⟩, ⟨.block [3], {}⟩]).arena.Ordered := by
    decide +kernel
  obtain ⟨-, -, hstruct, hsame⟩ := generation_compositional hordered
  have hbut : (sampleUnit [⟨.block [], {}⟩]).SameButBody 1
      (sampleUnit [⟨.breakStmt, {}⟩, ⟨.block [3], {}⟩]) := by
    obtain ⟨tree, htrees⟩ := itemTrees_sampleUnit hordered
    obtain ⟨tree', htrees'⟩ := itemTrees_sampleUnit hordered'
    refine ⟨[samplePoint.unplaced], [], "f", false, [], none, tree.unplaced, tree'.unplaced, rfl,
      ?_, ?_⟩
    · rw [htrees]
      rfl
    · rw [htrees']
      rfl
  refine ⟨hordered, ?_, ?_⟩
  · exact hstruct (by decide +kernel) 0 2 0 [1] {} (by decide +kernel) (by decide +kernel)
  · exact ((hsame _).2 1 hbut).2.2 0 (by decide)

end StagedCompiler
