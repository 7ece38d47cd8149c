import StagedCompiler.Proofs.CSyntax.Phrases
import StagedCompiler.Proofs.Target.KnownTypes
import StagedCompiler.Proofs.Target.Offences

/-!
Which trees have texts that C can take apart. Names have to be identifiers of C
and may not stand for types, and no text may hold a trigraph. Under these
conditions every expression that has a C form is a phrase, and every type that
is told from an expression can be written.
-/

namespace StagedCompiler

namespace CSyntax

open Target (CType Scope Signature infer inferFirst expr calleeName calleeText offences)

/-- The names and texts of a node can be written in C. A name that is used as a
value is no type, nor is the function that a call of it becomes. -/
def isReadable (types : List String) : NodeKind String Tree → Bool
  | .ident name => isUsable types name && isUsable types (calleeName name)
  | .letStmt name .. | .forStmt name .. | .param name .. | .function name .. => isUsable types name
  | .fieldAccess _ name | .namedType name | .field name _ | .struct name _ => isName name
  | .structLit name fields => isName name && fields.all fun field => isName field.name
  | .str text => trigraphFree text.toList
  | _ => true

def isUnsigned : NodeKind String Tree → Bool
  | .int value => decide (0 ≤ value)
  | .float value => !value.isNegative
  | _ => true

/-- Everything in the tree has a C form, and one that C takes apart again. -/
structure Fit (types : List String) (t : Tree) : Prop where
  sound : offences t = []
  readable : t.all (isReadable types) = true
  unsigned : t.all isUnsigned = true

section

variable {types : List String} {kind : NodeKind String Tree} {span : Span} {t : Tree}

theorem Fit.children (h : Fit types (.node kind span)) (hplain : kind.isPlain = true) :
    ∀ t ∈ kind.children, Fit types t := by
  intro t ht
  have hsound := h.sound
  rw [Target.offences_plain hplain, List.flatMap_eq_nil_iff] at hsound
  exact ⟨hsound t ht, (Tree.all_node.mp h.readable).2 t ht, (Tree.all_node.mp h.unsigned).2 t ht⟩

theorem Fit.at_node (h : Fit types (.node kind span)) :
    isReadable types kind = true ∧ isUnsigned kind = true :=
  ⟨(Tree.all_node.mp h.readable).1, (Tree.all_node.mp h.unsigned).1⟩

end

/-! ### Types of expressions -/

structure WritableScope (s : Scope) : Prop where
  vars : ∀ name t, s.var? name = some t → isWritable t = true
  fns : ∀ name sig, s.fn? name = some sig → isWritable sig.ret = true
  fields : ∀ name fs, s.fields? name = some fs → ∀ f ∈ fs, isWritable f.2 = true

/-- Types of readable names are writable. -/
theorem inherited_isWritable (types : List String) :
    Target.Inherited (isReadable types) (isWritable · = true) where
  named h := h
  literal h := by
    rw [isReadable, Bool.and_eq_true] at h
    exact h.1
  prim p := by cases p <;> decide
  void := rfl
  builtin := by decide
  ptr h := h
  array _ h := h
  elem := by
    intro t u h hu
    cases t <;> cases hu <;> exact h

section

variable {s : Scope}

theorem WritableScope.holds (h : WritableScope s) : s.Holds (isWritable · = true) :=
  ⟨h.vars, h.fns, h.fields⟩

theorem WritableScope.of_holds (h : s.Holds (isWritable · = true)) : WritableScope s :=
  ⟨h.vars, h.fns, h.fields⟩

theorem WritableScope.declareVar (h : WritableScope s) {t : CType} (ht : isWritable t = true)
    (name : String) : WritableScope (s.declareVar name t) :=
  .of_holds (h.holds.declareVar ht name)

end

/-! ### Texts of expressions -/

def isNumeral : Tree → Bool :=
  Tree.fold fun kind _ parts =>
    match kind, parts with
    | .int _, _ | .float _, _ | .bool _, _ => true
    | .fieldAccess .., [base] => base
    | _, _ => false

/-- What may follow besides the usual: a field of anything but a number. -/
def moreBehind (t : Tree) : List Char :=
  if isNumeral t then [] else fieldMarks

/-- The text of an expression is a phrase, and without its cast it is an
initializer. -/
structure ExprText (types : List String) (s : Scope) (t : Tree) : Prop where
  phrase : Phrase types (expr s false t) (moreBehind t)
  numeral : isNumeral t = true →
    Quiet (expr s false t).toList ∧ isNumber (expr s false t).toList = true
  initializer : Initializer (expr s true t)

section

variable {types : List String} {s : Scope} {t : Tree}

theorem ExprText.of_phrase (hnumeral : isNumeral t = false)
    (hphrase : Phrase types (expr s false t) fieldMarks) (hsame : expr s true t = expr s false t) :
    ExprText types s t where
  phrase := by
    rw [moreBehind, hnumeral]
    exact hphrase
  numeral h := by
    rw [hnumeral] at h
    cases h
  initializer := hsame ▸ hphrase.initializer

theorem ExprText.of_number (hnumeral : isNumeral t = true)
    (hnumber : Quiet (expr s false t).toList ∧ isNumber (expr s false t).toList = true)
    (hsame : expr s true t = expr s false t) : ExprText types s t := by
  have hphrase : Phrase types (expr s false t) [] := phrase_number hnumber.1 hnumber.2
  constructor
  · rw [moreBehind, hnumeral]
    exact hphrase
  · exact fun _ => hnumber
  · exact hsame ▸ hphrase.initializer

/-- A field behind a number becomes part of the number. -/
theorem isNumber_member {text name : List Char} (hquiet : Quiet text) (h : isNumber text = true)
    (hname : isWord name = true) :
    Quiet (text ++ (['.'] ++ name)) ∧ isNumber (text ++ (['.'] ++ name)) = true := by
  have hparts := isWord_parts hname
  constructor
  · have hnumber := quiet_of_number fun c hc => .inl (hparts c hc)
    exact hquiet.append (Quiet.append (quiet_of_plain (by decide)) hnumber)
  · cases text with
    | nil => cases h
    | cons c text =>
      rw [isNumber, Bool.and_eq_true, beq_iff_eq] at h
      have hmore : ∀ d ∈ ['.'] ++ name, isWordPart d = true ∨ d = '.' := by
        intro d hd
        rcases List.mem_cons.mp hd with rfl | hd
        · exact .inr rfl
        · exact .inl (hparts d hd)
      obtain ⟨last, htail⟩ := numberTail_append h.2 (['.'] ++ name)
      rw [List.cons_append, isNumber, h.1, htail, numberTail_of_parts last hmore]
      simp

/-- The text of a field access, from that of its base. -/
theorem exprText_member {base : Tree} {name : String} {span : Span} (hbase : ExprText types s base)
    (hname : isName name = true) : ExprText types s (.node (.fieldAccess base name) span) := by
  rw [isName, Bool.and_eq_true] at hname
  have hnumeral : isNumeral (.node (.fieldAccess base name) span) = isNumeral base := by
    rw [isNumeral, Tree.fold_node]
    rfl
  have hsame : expr s true (.node (.fieldAccess base name) span) =
      expr s false (.node (.fieldAccess base name) span) := by
    rw [expr, expr]
  cases hcase : isNumeral base with
  | true =>
    have hptr : Target.isThroughPtr s base = false := by
      obtain ⟨kind, place⟩ := base
      cases kind with
      | ident _ => cases hcase
      | _ => rfl
    obtain ⟨hquiet, hnumber⟩ := hbase.numeral hcase
    have hboth := isNumber_member hquiet hnumber hname.1
    apply ExprText.of_number (hnumeral.trans hcase) _ hsame
    rw [expr, hptr]
    simpa using hboth
  | false =>
    have hphrase := hbase.phrase
    rw [moreBehind, hcase] at hphrase
    apply ExprText.of_phrase (hnumeral.trans hcase) _ hsame
    rw [expr]
    exact phrase_member hphrase hname.1 _

theorem exprText_call {callee : Tree} {args : List Tree} {span : Span}
    (hcallee : ExprText types s callee) (hreadable : callee.all (isReadable types) = true)
    (hargs : ∀ t ∈ args, ExprText types s t) :
    ExprText types s (.node (.call callee args) span) := by
  obtain ⟨more, hname⟩ : ∃ more, Phrase types (calleeText s callee) more := by
    obtain ⟨kind, place⟩ := callee
    cases kind with
    | ident name =>
      have hkind := (Tree.all_node.mp hreadable).1
      rw [isReadable, Bool.and_eq_true] at hkind
      exact ⟨_, phrase_name hkind.2⟩
    | _ => exact ⟨_, hcallee.phrase⟩
  have hlist : Entries (", ".intercalate (args.map (expr s false))) :=
    entries_separated fun t ht => (hargs t ht).phrase.entry
  apply ExprText.of_phrase
  · rw [isNumeral, Tree.fold_node]
  · rw [Target.expr_call]
    exact phrase_call hname hlist
  · rw [Target.expr_call, Target.expr_call]

/-- An array literal has a cast before its braces, unless it initializes. -/
theorem exprText_array {elems : List Tree} {span : Span} (hs : WritableScope s)
    (hreadable : ∀ t ∈ elems, t.all (isReadable types) = true)
    (helems : ∀ t ∈ elems, ExprText types s t) :
    ExprText types s (.node (.arrayLit elems) span) := by
  have hlist : Entries (", ".intercalate (elems.map (expr s true))) :=
    entries_separated fun t ht => (helems t ht).initializer.entry
  have hbraces := braces_entries hlist
  have htype := typeText_render ((inherited_isWritable types).holds_inferFirst fun t ht =>
    (inherited_isWritable types).holds_of_infer hs.holds (hreadable t ht))
  have htexts : (Target.exprs s true #[] elems).toList = elems.map (expr s true) :=
    Target.exprs_eq s true #[] elems
  have hdims := (spells_single '[' .lbracket (by decide)).append_any
    (spells_single ']' .rbracket (by decide))
  have hinner : Spells ((inferFirst s elems).render ++ "[]").toList
      (lexemesOf (inferFirst s elems).render ++ [Lexeme.mark .lbracket, .mark .rbracket])
      AnyNext := by
    rw [String.toList_append]
    exact htype.spells.append hdims (starts_cons (by decide) _)
  have hnested := htype.form.nested.inside.append (.enclose (m := .lbracket) rfl rfl .nil)
  have hunbroken : '\n' ∉ ((inferFirst s elems).render ++ "[]").toList := by
    rw [String.toList_append]
    exact List.not_mem_append htype.unbroken (by decide)
  have hphrase : Phrase types _ fieldMarks := phrase_cast hinner trivial hnested hunbroken hbraces
  have htext : expr s false (.node (.arrayLit elems) span) =
      "(" ++ ((inferFirst s elems).render ++ "[]") ++ ")" ++
        ("\x7b" ++ ", ".intercalate (elems.map (expr s true)) ++ "\x7d") := by
    rw [expr, htexts]
    apply String.toList_inj.mp
    simp
  constructor
  · have hnumeral : isNumeral (.node (.arrayLit elems) span) = false := by
      rw [isNumeral, Tree.fold_node]
    rw [moreBehind, hnumeral, htext]
    exact hphrase
  · intro hnumeral
    rw [isNumeral, Tree.fold_node] at hnumeral
    cases hnumeral
  · rw [expr, htexts]
    simpa using hbraces.initializer

theorem braces_fields {fields : List (FieldInit String Tree)}
    (hnames : ∀ field ∈ fields, isName field.name = true)
    (hfields : ∀ field ∈ fields, ExprText types s field.value) :
    Braces (if fields.isEmpty then "\x7b0\x7d"
      else "\x7b " ++ ", ".intercalate (Target.fieldExprs s #[] fields).toList ++ " \x7d") := by
  have htexts : (Target.fieldExprs s #[] fields).toList =
      fields.map fun field => "." ++ field.name ++ " = " ++ expr s true field.value :=
    Target.fieldExprs_eq s #[] fields
  rw [htexts]
  cases fields with
  | nil =>
    have hzero : Phrase types "0" [] := phrase_number (quiet_of_plain (by decide)) (by decide)
    exact braces_entries hzero.entry.entries
  | cons field fields =>
    have hentry : Entry (", ".intercalate ((field :: fields).map fun field =>
        "." ++ field.name ++ " = " ++ expr s true field.value)) := by
      apply entry_separated
      intro f hf
      have hname := hnames f hf
      rw [isName, Bool.and_eq_true] at hname
      exact entry_field hname.1 (hfields f hf).initializer
    have hbraces := braces_entries hentry.padded.entries
    have hopen : "\x7b " = "\x7b" ++ " " := rfl
    have hclose : " \x7d" = " " ++ "\x7d" := rfl
    rw [if_neg (by simp), hopen, hclose]
    simpa only [String.append_assoc] using hbraces

theorem exprText_struct {name : String} {fields : List (FieldInit String Tree)} {span : Span}
    (hname : isName name = true) (hnames : ∀ field ∈ fields, isName field.name = true)
    (hfields : ∀ field ∈ fields, ExprText types s field.value) :
    ExprText types s (.node (.structLit name fields) span) := by
  have hbraces := braces_fields hnames hfields
  have htype := typeText_struct hname
  have hphrase : Phrase types _ fieldMarks :=
    phrase_cast htype.spells (by decide) htype.form.nested.inside htype.unbroken hbraces
  have hopen : "(struct " = "(" ++ "struct " := rfl
  constructor
  · have hnumeral : isNumeral (.node (.structLit name fields) span) = false := by
      rw [isNumeral, Tree.fold_node]
    rw [moreBehind, hnumeral, expr, hopen]
    simpa only [String.append_assoc, Bool.false_eq_true, if_false] using hphrase
  · intro hnumeral
    rw [isNumeral, Tree.fold_node] at hnumeral
    cases hnumeral
  · rw [expr]
    simpa using hbraces.initializer

theorem exprText_int {value : Int} {span : Span} (h : 0 ≤ value) :
    ExprText types s (.node (.int value) span) := by
  obtain ⟨n, rfl⟩ := Int.eq_ofNat_of_zero_le h
  apply ExprText.of_number
  · rw [isNumeral, Tree.fold_node]
  · rw [expr, toList_toString_ofNat]
    exact isNumber_toDigits n
  · rw [expr, expr]

theorem exprText_float {value : Double} {span : Span} (hfinite : value.isFinite = true)
    (hsign : value.isNegative = false) : ExprText types s (.node (.float value) span) := by
  have hreads := readsFloat_render hsign hfinite
  apply ExprText.of_number
  · rw [isNumeral, Tree.fold_node]
  · rw [expr, if_pos hfinite]
    exact ⟨hreads.quiet, hreads.number⟩
  · rw [expr, expr]

theorem exprText_bool {value : Bool} {span : Span} :
    ExprText types s (.node (.bool value) span) := by
  apply ExprText.of_number
  · rw [isNumeral, Tree.fold_node]
  · rw [expr]
    cases value <;> exact ⟨quiet_of_plain (by decide), by decide⟩
  · rw [expr, expr]

/-- A readable node is written as a phrase if its children are. -/
theorem exprText_node {kind : NodeKind String Tree} {span : Span} (hs : WritableScope s)
    (hexpr : kind.isExpr = true) (h : ∀ t ∈ kind.children, Fit types t → ExprText types s t)
    (hfit : Fit types (.node kind span)) : ExprText types s (.node kind span) := by
  obtain ⟨hreadable, hunsigned⟩ := hfit.at_node
  have hchild (hplain : kind.isPlain = true) (t : Tree) (ht : t ∈ kind.children) :
      ExprText types s t := h t ht (hfit.children hplain t ht)
  cases kind with
  | int value => exact exprText_int (of_decide_eq_true hunsigned)
  | float value =>
    have hsound := hfit.sound
    rw [Target.offences_float] at hsound
    have hfinite : value.isFinite = true := by
      split at hsound
      · assumption
      · cases hsound
    exact exprText_float hfinite (by simpa [isUnsigned] using hunsigned)
  | bool value => exact exprText_bool
  | ident name =>
    rw [isReadable, Bool.and_eq_true] at hreadable
    apply ExprText.of_phrase
    · rw [isNumeral, Tree.fold_node]
    · rw [expr]
      exact phrase_name hreadable.1
    · rw [expr, expr]
  | str text =>
    apply ExprText.of_phrase
    · rw [isNumeral, Tree.fold_node]
    · rw [expr]
      exact phrase_string hreadable
    · rw [expr, expr]
  | char value =>
    apply ExprText.of_phrase
    · rw [isNumeral, Tree.fold_node]
    · rw [expr]
      exact phrase_char value
    · rw [expr, expr]
  | binary op lhs rhs =>
    have hlhs := hchild rfl lhs (by simp [NodeKind.children])
    have hrhs := hchild rfl rhs (by simp [NodeKind.children])
    apply ExprText.of_phrase
    · rw [isNumeral, Tree.fold_node]
    · rw [expr]
      exact phrase_binary hlhs.phrase hrhs.phrase op
    · rw [expr, expr]
  | unary op operand =>
    have hoperand := hchild rfl operand (by simp [NodeKind.children])
    apply ExprText.of_phrase
    · rw [isNumeral, Tree.fold_node]
    · rw [expr]
      exact phrase_unary hoperand.phrase op
    · rw [expr, expr]
  | call callee args =>
    have hcallee := hchild rfl callee (by simp [NodeKind.children])
    have hnames := (Tree.all_node.mp hfit.readable).2 callee (by simp [NodeKind.children])
    apply exprText_call hcallee hnames
    exact fun t ht => hchild rfl t (by simp [NodeKind.children, ht])
  | index base place =>
    have hbase := hchild rfl base (by simp [NodeKind.children])
    have hplace := hchild rfl place (by simp [NodeKind.children])
    apply ExprText.of_phrase
    · rw [isNumeral, Tree.fold_node]
    · rw [expr]
      exact phrase_index hbase.phrase hplace.phrase
    · rw [expr, expr]
  | fieldAccess base name =>
    exact exprText_member (hchild rfl base (by simp [NodeKind.children])) hreadable
  | arrayLit elems =>
    apply exprText_array hs
    · exact (Tree.all_node.mp hfit.readable).2
    · exact hchild rfl
  | structLit name fields =>
    rw [isReadable, Bool.and_eq_true, List.all_eq_true] at hreadable
    apply exprText_struct hreadable.1 hreadable.2
    intro field hfield
    exact hchild rfl field.value (List.mem_map_of_mem hfield)
  | range start stop inclusive =>
    have hsound := hfit.sound
    rw [Target.offences_range] at hsound
    cases hsound
  | _ => cases hexpr

/-- Every expression that has a C form is a phrase, and so are its parts. -/
theorem exprText_of_expr (hs : WritableScope s) {n : Nat} (h : Shape.Expr n t) :
    (Fit types t → ExprText types s t) ∧
      ∀ u ∈ t.kind.children, Fit types u → ExprText types s u := by
  have hclosed : Shape.ExprClosed fun t => (Fit types t → ExprText types s t) ∧
      ∀ u ∈ t.kind.children, Fit types u → ExprText types s u := by
    intro kind span hexpr hchildren
    have hparts : ∀ u ∈ kind.children, Fit types u → ExprText types s u :=
      fun u hu => (hchildren u hu).1
    exact ⟨exprText_node hs hexpr hparts, hparts⟩
  exact Shape.expr_closed hclosed h

end

end CSyntax

end StagedCompiler
