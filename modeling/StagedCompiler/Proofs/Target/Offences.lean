import StagedCompiler.Proofs.Target.GeneratorRuns
import StagedCompiler.Proofs.Tree.ParsedShape

/-!
What the generator has to say about a program. For a tree of the shape that
parsing gives, everything has a C form but ranges outside loop heads, loops
over anything else, and floats that are not finite. `Tree.offences` lists these
in the order of the source; the notes of the generator are the same list,
whatever it knows of the names.
-/

namespace StagedCompiler

def NodeKind.isRange {Name Child : Type} : NodeKind Name Child → Bool
  | range .. => true
  | _ => false

/-- The kinds that have a C form wherever they may stand, if their children do. -/
def NodeKind.isPlain {Name Child : Type} : NodeKind Name Child → Bool
  | range .. | float _ | forStmt .. => false
  | _ => true

theorem NodeKind.isExpr_of_isAtom {Name Child : Type} {kind : NodeKind Name Child}
    (h : kind.isAtom = true) : kind.isExpr = true := by
  cases kind with
  | ident _ | int _ | float _ | str _ | char _ | bool _ => rfl
  | _ => cases h

theorem NodeKind.isRange_map {Name Child Name' Child' : Type} (f : Name → Name')
    (g : Child → Child') (kind : NodeKind Name Child) : (kind.map f g).isRange = kind.isRange := by
  cases kind <;> rfl

theorem NodeKind.isPlain_map {Name Child Name' Child' : Type} (f : Name → Name')
    (g : Child → Child') (kind : NodeKind Name Child) : (kind.map f g).isPlain = kind.isPlain := by
  cases kind <;> rfl

theorem Tree.eq_range {t : Tree} (h : t.kind.isRange = true) :
    ∃ start stop inclusive span, t = .node (.range start stop inclusive) span := by
  obtain ⟨kind, span⟩ := t
  cases kind with
  | range start stop inclusive => exact ⟨start, stop, inclusive, span, rfl⟩
  | _ => cases h

namespace Target

def Fault.diagnostic (fault : Fault) (span : Span) : Diagnostic :=
  ⟨.codegen, fault.message, some span⟩

/-- What is to be said of a node, from what is to be said of its children. The
flag tells whether a tree stands where a loop wants a range. -/
def offencesStep (kind : NodeKind String Tree) (span : Span)
    (parts : List (Bool → List Diagnostic)) (asIterator : Bool) : List Diagnostic :=
  if asIterator && !kind.isRange then [Fault.forOverNonRange.diagnostic span]
  else
    match kind, parts with
    | .range .., _ =>
      if asIterator then parts.flatMap (· false) else [Fault.rangeOutsideFor.diagnostic span]
    | .float v, _ => if v.isFinite then [] else [Fault.nonFiniteFloat.diagnostic span]
    | .forStmt _ iter _, [head, body] => head true ++ if iter.kind.isRange then body false else []
    | _, _ => parts.flatMap (· false)

/-- What is to be said of a tree, from left to right. What stands inside an
offender goes with it. -/
def offences (t : Tree) : List Diagnostic :=
  t.fold offencesStep false

/-! ### Equations -/

section

variable {kind : NodeKind String Tree} {span : Span} {t : Tree}

theorem offences_range {start stop : Tree} {inclusive : Bool} :
    offences (.node (.range start stop inclusive) span) =
      [Fault.rangeOutsideFor.diagnostic span] := by
  simp [offences, offencesStep, Tree.fold_node]

theorem offences_float {v : Double} :
    offences (.node (.float v) span) =
      if v.isFinite then [] else [Fault.nonFiniteFloat.diagnostic span] := by
  simp [offences, offencesStep, Tree.fold_node]

theorem offences_forRange {var : String} {start stop body : Tree} {inclusive : Bool}
    {head : Span} :
    offences (.node (.forStmt var (.node (.range start stop inclusive) head) body) span) =
      offences start ++ offences stop ++ offences body := by
  simp [offences, offencesStep, Tree.fold_node, NodeKind.children, NodeKind.isRange, Tree.kind]

theorem offences_forOther {var : String} {iter body : Tree} (h : iter.kind.isRange = false) :
    offences (.node (.forStmt var iter body) span) =
      [Fault.forOverNonRange.diagnostic iter.span] := by
  cases iter with
  | node kind head =>
    simp only [Tree.kind] at h
    simp [offences, offencesStep, Tree.fold_node, NodeKind.children, h, Tree.kind, Tree.span]

theorem offences_plain (h : kind.isPlain = true) :
    offences (.node kind span) = kind.children.flatMap offences := by
  unfold offences
  rw [Tree.fold_node]
  cases kind with
  | range _ _ _ | float _ | forStmt _ _ _ => cases h
  | _ => simp [offencesStep, List.flatMap_map]

end

/-! ### Expressions and types -/

def NotesExact (t : Tree) : Prop :=
  (exprNotes t).filterMap Note.diagnostic? = offences t

theorem filterMap_flatten_map {ts : List Tree} (h : ∀ t ∈ ts, NotesExact t) :
    (ts.map exprNotes).flatten.filterMap Note.diagnostic? = ts.flatMap offences := by
  induction ts with
  | nil => rfl
  | cons t ts ih =>
    rw [List.map_cons, List.flatten_cons, List.filterMap_append, List.flatMap_cons,
      ih fun u hu => h u (List.mem_cons_of_mem _ hu)]
    exact congrArg (· ++ _) (h t List.mem_cons_self)

section

variable {kind : NodeKind String Tree} {span : Span}

theorem exprNotes_of_fault {fault : Fault} (h : exprFault? kind = some fault) :
    exprNotes (.node kind span) = [.unsupported fault span] := by
  simp only [exprNotes, Tree.fold_node, h]

theorem exprNotes_of_none (h : exprFault? kind = none) :
    exprNotes (.node kind span) = (kind.children.map exprNotes).flatten := by
  simp only [exprNotes, Tree.fold_node, h]
  rfl

/-- The notes of a node are its offences if those of its children are. -/
theorem notesExact_node (hexpr : kind.isExpr = true) (h : ∀ t ∈ kind.children, NotesExact t) :
    NotesExact (.node kind span) := by
  unfold NotesExact
  have hplain (hfault : exprFault? kind = none) (hplain : kind.isPlain = true) :
      (exprNotes (.node kind span)).filterMap Note.diagnostic? = offences (.node kind span) := by
    rw [exprNotes_of_none hfault, filterMap_flatten_map h, offences_plain hplain]
  cases kind with
  | range start stop inclusive => rw [exprNotes_of_fault rfl, offences_range]; rfl
  | float v =>
    rw [offences_float]
    by_cases hfinite : v.isFinite = true
    · have hnone : exprFault? (.float v : NodeKind String Tree) = none := by
        simp [exprFault?, hfinite]
      rw [exprNotes_of_none hnone]
      simp [hfinite, NodeKind.children]
    · have hfault : exprFault? (.float v : NodeKind String Tree) = some .nonFiniteFloat := by
        simp [exprFault?, hfinite]
      rw [exprNotes_of_fault hfault]
      simp [hfinite, Note.diagnostic?, Fault.diagnostic]
  | ident _ | int _ | str _ | char _ | bool _ | binary _ _ _ | unary _ _ | call _ _ | index _ _
  | fieldAccess _ _ | arrayLit _ | structLit _ _ => exact hplain rfl rfl
  | _ => cases hexpr

end

end Target

namespace Shape

def ExprClosed (P : Tree → Prop) : Prop :=
  ∀ (kind : NodeKind String Tree) (span : Span), kind.isExpr = true →
    (∀ t ∈ kind.children, P t) → P (.node kind span)

mutual

theorem operand_closed {P : Tree → Prop} (hP : ExprClosed P) {n : Nat} {t : Tree}
    (h : Operand n t) : P t := by
  match h with
  | .unary op span hx =>
    have hoperand := operand_closed hP hx
    apply hP _ _ rfl
    simpa [NodeKind.children] using hoperand
  | .refRef (x := x) inner outer hx =>
    have hoperand := operand_closed hP hx
    have hinner : P (.node (.unary .ref x) inner) := by
      apply hP _ _ rfl
      simpa [NodeKind.children] using hoperand
    apply hP _ _ rfl
    simpa [NodeKind.children] using hinner
  | .bare hx => exact postfixed_closed hP hx

theorem primary_closed {P : Tree → Prop} (hP : ExprClosed P) {n : Nat} {t : Tree}
    (h : Primary n t) : P t := by
  match h with
  | .atom span hatom =>
    apply hP
    · exact NodeKind.isExpr_of_isAtom hatom
    · simp [NodeKind.children_of_isAtom hatom]
  | .group hx => exact expr_closed hP hx
  | .array span helems =>
    apply hP _ _ rfl
    intro t ht
    exact expr_closed hP (helems t (by simpa [NodeKind.children] using ht))
  | .struct name span hfields =>
    apply hP _ _ rfl
    intro t ht
    obtain ⟨f, hf, rfl⟩ := List.mem_map.mp ht
    exact expr_closed hP (hfields f hf)

theorem postfixed_closed {P : Tree → Prop} (hP : ExprClosed P) {n m : Nat} {t : Tree}
    (h : Postfixed n m t) : P t := by
  match h with
  | .base hx => exact primary_closed hP hx
  | .call span hcallee hargs =>
    have hfirst := postfixed_closed hP hcallee
    apply hP _ _ rfl
    intro t ht
    rcases List.mem_cons.mp ht with rfl | harg
    · exact hfirst
    · exact expr_closed hP (hargs t harg)
  | .index span hbase hplace =>
    have hfirst := postfixed_closed hP hbase
    have hsecond := expr_closed hP hplace
    apply hP _ _ rfl
    simp only [NodeKind.children, List.forall_mem_cons]
    exact ⟨hfirst, hsecond, by simp⟩
  | .field name span hbase =>
    have hfirst := postfixed_closed hP hbase
    apply hP _ _ rfl
    simpa [NodeKind.children] using hfirst

theorem linked_closed {P : Tree → Prop} (hP : ExprClosed P) {n m : Nat} {t : Tree}
    (h : Linked n m t) : P t := by
  match h with
  | .first hx => exact operand_closed hP hx
  | .link op span hlhs hrhs =>
    have hfirst := linked_closed hP hlhs
    have hsecond := expr_closed hP hrhs
    apply hP
    · cases op <;> rfl
    · simp only [InfixOp.children_node, List.forall_mem_cons]
      exact ⟨hfirst, hsecond, by simp⟩

/-- So it holds of every expression. -/
theorem expr_closed {P : Tree → Prop} (hP : ExprClosed P) {n : Nat} {t : Tree} (h : Expr n t) :
    P t := by
  match h with
  | .mk hx => exact linked_closed hP hx

end

end Shape

namespace Target

open Shape

/-- The notes of an expression are exact, and so are those of its parts. -/
theorem notesExact_of_expr {n : Nat} {t : Tree} (h : Expr n t) :
    NotesExact t ∧ ∀ u ∈ t.kind.children, NotesExact u := by
  have hclosed : ExprClosed fun t => NotesExact t ∧ ∀ u ∈ t.kind.children, NotesExact u := by
    intro kind span hexpr hchildren
    have hparts : ∀ u ∈ kind.children, NotesExact u := fun u hu => (hchildren u hu).1
    exact ⟨notesExact_node hexpr hparts, hparts⟩
  exact expr_closed hclosed h

theorem lowerNotes_of_type {n : Nat} {t : Tree} (h : TypeAt n t) : lowerNotes t = [] := by
  have hsome : (CType.ofTree? t).isSome = true := by
    induction h with
    | prim _ _ => rfl
    | named _ _ => rfl
    | array len span _ ih => simpa [CType.ofTree?] using ih
    | ref mutable span _ ih => simpa [CType.ofTree?] using ih
  simp [lowerNotes, hsome]

theorem offences_of_type {n : Nat} {t : Tree} (h : TypeAt n t) : offences t = [] := by
  induction h with
  | prim _ _ => exact offences_plain rfl
  | named _ _ => exact offences_plain rfl
  | array len span _ ih =>
    rw [offences_plain rfl]
    simpa [NodeKind.children] using ih
  | ref mutable span _ ih =>
    rw [offences_plain rfl]
    simpa [NodeKind.children] using ih

/-! ### Statements -/

def Reports {α : Type} (w : Writer α) (ds : List Diagnostic) : Prop :=
  ∀ st, (w.run st).2.notes.toList.filterMap Note.diagnostic? =
    st.notes.toList.filterMap Note.diagnostic? ++ ds

namespace Reports

variable {α β : Type} {w : Writer α} {f : α → Writer β} {ds es : List Diagnostic}

theorem bind (hw : Reports w ds) (hf : ∀ a, Reports (f a) es) : Reports (w >>= f) (ds ++ es) := by
  intro st
  have hrun : (w >>= f).run st = (f (w.run st).1).run (w.run st).2 := rfl
  rw [hrun, hf, hw, List.append_assoc]

/-- A step that reports nothing. -/
theorem silent (hw : Reports w []) (hf : ∀ a, Reports (f a) es) : Reports (w >>= f) es :=
  hw.bind hf

/-- A last step that reports nothing. -/
theorem last (hw : Reports w ds) (hf : ∀ a, Reports (f a) []) : Reports (w >>= f) ds := by
  have hboth := hw.bind hf
  rwa [List.append_nil] at hboth

theorem of_notes_eq (h : ∀ st, (w.run st).2.notes = st.notes) : Reports w [] := by
  intro st
  rw [h, List.append_nil]

end Reports

theorem reports_pure {α : Type} (a : α) : Reports (pure a) [] :=
  .of_notes_eq fun _ => rfl

theorem reports_get : Reports (get : Writer WriterState) [] :=
  .of_notes_eq fun _ => rfl

theorem reports_line (depth : Nat) (text : String) : Reports (Writer.line depth text) [] :=
  .of_notes_eq fun _ => rfl

theorem reports_declareVar (name : String) (t : CType) : Reports (Writer.declareVar name t) [] :=
  .of_notes_eq fun _ => rfl

theorem reports_note (ns : List Note) :
    Reports (Writer.note ns) (ns.filterMap Note.diagnostic?) := by
  intro st
  change (st.notes ++ ns).toList.filterMap _ = _
  rw [Array.toList_appendList, List.filterMap_append]

theorem reports_noNotes {ns : List Note} (h : ns = []) : Reports (Writer.note ns) [] := by
  rw [h]
  exact reports_note []

section

variable {n : Nat} {t : Tree}

theorem reports_written (h : NotesExact t) : Reports (written t) (offences t) := by
  rw [← show _ = offences t from h]
  apply (reports_note _).last
  intro _
  exact reports_get.silent fun _ => reports_pure _

theorem reports_writtenCondition (h : NotesExact t) :
    Reports (writtenCondition t) (offences t) := by
  rw [← show _ = offences t from h]
  apply (reports_note _).last
  intro _
  exact reports_get.silent fun _ => reports_pure _

/-- Whether the type of a variable can be told is never a fault. -/
theorem letTypeNotes_silent {type : Option Tree} (htype : ∀ t ∈ type, TypeAt n t) (s : Scope)
    (name : String) (init : Option Tree) :
    (letTypeNotes s name type init).filterMap Note.diagnostic? = [] := by
  unfold letTypeNotes
  split
  · next t => rw [lowerNotes_of_type (htype t rfl)]; rfl
  · split
    · rfl
    · rfl
  · rfl

/-- A declaration reports what its value lacks. -/
theorem letStmt_reports {type init : Option Tree} (depth : Nat) (name : String)
    (htype : ∀ t ∈ type, TypeAt n t) (hinit : ∀ t ∈ init, Expr n t) :
    Reports (letStmt depth name type init) (init.toList.flatMap offences) := by
  unfold letStmt
  apply reports_get.silent
  intro st
  have htyped := reports_note (letTypeNotes st.scope name type init)
  rw [letTypeNotes_silent htype] at htyped
  apply htyped.silent
  intro _
  cases init with
  | none =>
    apply (reports_line _ _).silent
    exact fun _ => reports_declareVar _ _
  | some e =>
    have hnotes := reports_note (exprNotes e)
    rw [(notesExact_of_expr (hinit e rfl)).1] at hnotes
    simp only [Option.toList_some, List.flatMap_singleton]
    apply hnotes.last
    intro _
    apply (reports_line _ _).silent
    exact fun _ => reports_declareVar _ _

/-- Statements report what each of them does, in order. -/
theorem stmts_reports {ts : List Tree} {inMain : Bool} {depth : Nat}
    (h : ∀ t ∈ ts, Reports (stmt inMain false depth t) (offences t)) :
    Reports (stmts inMain depth ts) (ts.flatMap offences) := by
  induction ts with
  | nil => exact reports_pure _
  | cons t ts ih =>
    rw [stmts, List.flatMap_cons]
    apply (h t List.mem_cons_self).bind
    intro _
    exact ih fun u hu => h u (List.mem_cons_of_mem _ hu)

theorem forStmt_reports {iter body : Tree} {var : String} {span : Span} {inMain : Bool}
    {depth : Nat} (hiter : Expr n iter)
    (hbody : Reports (stmt inMain true (depth + 1) body) (offences body)) :
    Reports (stmt inMain false depth (.node (.forStmt var iter body) span))
      (offences (.node (.forStmt var iter body) span)) := by
  by_cases hrange : iter.kind.isRange = true
  · obtain ⟨start, stop, inclusive, head, rfl⟩ := Tree.eq_range hrange
    have hparts := (notesExact_of_expr hiter).2
    rw [stmt, offences_forRange, List.append_assoc]
    apply (reports_written (hparts start (by simp [Tree.kind, NodeKind.children]))).bind
    intro _
    apply (reports_written (hparts stop (by simp [Tree.kind, NodeKind.children]))).bind
    intro _
    apply (reports_declareVar _ _).silent
    intro _
    apply (reports_line _ _).silent
    intro _
    apply hbody.last
    exact fun _ => reports_line _ _
  · rw [offences_forOther (by simpa using hrange), stmt]
    · exact reports_note _
    · rintro start stop inclusive head rfl
      exact hrange rfl

theorem ifStmt_reports {cond thenBranch : Tree} {elseBranch : Option Tree} {span : Span}
    {inMain : Bool} {depth : Nat} (hcond : Expr n cond)
    (hthen : Reports (stmt inMain true (depth + 1) thenBranch) (offences thenBranch))
    (helse : ∀ t ∈ elseBranch, Reports (elseChain inMain depth (some t)) (offences t)) :
    Reports (stmt inMain false depth (.node (.ifStmt cond thenBranch elseBranch) span))
        (offences (.node (.ifStmt cond thenBranch elseBranch) span)) ∧
      Reports (elseChain inMain depth (some (.node (.ifStmt cond thenBranch elseBranch) span)))
        (offences (.node (.ifStmt cond thenBranch elseBranch) span)) := by
  have hrest : Reports (elseChain inMain depth elseBranch)
      (elseBranch.toList.flatMap offences) := by
    cases elseBranch with
    | none =>
      rw [elseChain]
      exact reports_pure _
    | some t => simpa using helse t rfl
  have hparts : offences (.node (.ifStmt cond thenBranch elseBranch) span) =
      offences cond ++ (offences thenBranch ++ elseBranch.toList.flatMap offences) := by
    rw [offences_plain rfl]
    simp [NodeKind.children]
  rw [stmt, elseChain, hparts]
  constructor
  · apply (reports_writtenCondition (notesExact_of_expr hcond).1).bind
    intro _
    apply (reports_line _ _).silent
    intro _
    apply hthen.bind
    intro _
    apply hrest.last
    exact fun _ => reports_line _ _
  · apply (reports_writtenCondition (notesExact_of_expr hcond).1).bind
    intro _
    apply (reports_line _ _).silent
    intro _
    apply hthen.bind
    exact fun _ => hrest

end

mutual

/-- A statement reports its offences, by induction on its shape. -/
theorem stmt_reports {n : Nat} {t : Tree} (h : StmtAt n t) (inMain : Bool) (depth : Nat) :
    Reports (stmt inMain false depth t) (offences t) := by
  match h with
  | @StmtAt.letStmt _ type init name mutable span htype hinit =>
    rw [stmt, offences_plain rfl]
    have htypes : type.toList.flatMap offences = [] := by
      cases type with
      | none => rfl
      | some t => simpa using offences_of_type (htype t rfl)
    rw [NodeKind.children, List.flatMap_append, htypes]
    exact letStmt_reports depth name htype hinit
  | .assign op span htarget hvalue =>
    rw [stmt, offences_plain rfl]
    simp only [NodeKind.children, List.flatMap_cons, List.flatMap_nil]
    apply (reports_written (notesExact_of_expr htarget).1).bind
    intro _
    apply (reports_written (notesExact_of_expr hvalue).1).bind
    exact fun _ => reports_line _ _
  | @StmtAt.returnStmt _ none span hvalue =>
    rw [stmt, offences_plain rfl]
    exact reports_line _ _
  | @StmtAt.returnStmt _ (some value) span hvalue =>
    rw [stmt, offences_plain rfl]
    simp only [NodeKind.children, Option.toList_some, List.flatMap_singleton]
    apply (reports_written (notesExact_of_expr (hvalue value rfl)).1).last
    exact fun _ => reports_line _ _
  | .exprStmt span hexpr =>
    rw [stmt, offences_plain rfl]
    simp only [NodeKind.children, List.flatMap_singleton]
    apply (reports_written (notesExact_of_expr hexpr).1).last
    exact fun _ => reports_line _ _
  | .whileStmt span hcond hbody =>
    have hloop := block_reports hbody inMain true (depth + 1)
    rw [stmt, offences_plain rfl]
    simp only [NodeKind.children, List.flatMap_cons, List.flatMap_nil, List.append_nil]
    apply (reports_writtenCondition (notesExact_of_expr hcond).1).bind
    intro _
    apply (reports_line _ _).silent
    intro _
    apply hloop.last
    exact fun _ => reports_line _ _
  | .forStmt var span hiter hbody =>
    have hloop := block_reports hbody inMain true (depth + 1)
    exact forStmt_reports hiter hloop
  | .breakStmt span =>
    rw [stmt, offences_plain rfl]
    exact reports_line _ _
  | .continueStmt span =>
    rw [stmt, offences_plain rfl]
    exact reports_line _ _
  | .block hblock => exact block_reports hblock inMain false depth
  | .conditional hif => exact (conditional_reports hif inMain depth).1

/-- A block reports the offences below it. -/
theorem block_reports {n : Nat} {t : Tree} (h : BlockAt n t) (inMain asBody : Bool) (depth : Nat) :
    Reports (stmt inMain asBody depth t) (offences t) := by
  match h with
  | @BlockAt.mk _ ts span hstmts =>
    have hall (depth : Nat) : Reports (stmts inMain depth ts) (ts.flatMap offences) := by
      apply stmts_reports
      exact fun t ht => stmt_reports (hstmts t ht) inMain depth
    rw [stmt, offences_plain rfl]
    cases asBody with
    | true => exact hall depth
    | false =>
      apply (reports_line _ _).silent
      intro _
      apply (hall (depth + 1)).last
      exact fun _ => reports_line _ _

theorem conditional_reports {n : Nat} {t : Tree} (h : ConditionalAt n t) (inMain : Bool)
    (depth : Nat) :
    Reports (stmt inMain false depth t) (offences t) ∧
      Reports (elseChain inMain depth (some t)) (offences t) := by
  match h with
  | .mk span hcond hthen helse =>
    have hbranch := block_reports hthen inMain true (depth + 1)
    apply ifStmt_reports hcond hbranch
    exact fun t ht => else_reports (helse t ht) inMain depth

/-- What stands behind `else` reports the offences below it. -/
theorem else_reports {n : Nat} {t : Tree} (h : ElseAt n t) (inMain : Bool) (depth : Nat) :
    Reports (elseChain inMain depth (some t)) (offences t) := by
  match h with
  | .block hblock =>
    have hbody := block_reports hblock inMain true (depth + 1)
    match hblock with
    | .mk span hstmts =>
      rw [elseChain]
      · apply (reports_line _ _).silent
        exact fun _ => hbody
      · rintro _ _ _ _ ⟨⟩
  | .conditional hif => exact (conditional_reports hif inMain depth).2

end

/-! ### Items and programs -/

section

variable {n : Nat}

theorem paramTypes_typed {params : List Tree} (h : ∀ t ∈ params, ParamAt n t) :
    ∀ p ∈ paramTypes params, TypeAt n p.2 := by
  intro p hp
  obtain ⟨t, ht, hsome⟩ := List.mem_filterMap.mp hp
  cases h t ht with
  | mk name mutable span htype =>
    cases hsome
    exact htype

theorem fieldTypes_typed {fields : List Tree} (h : ∀ t ∈ fields, FieldAt n t) :
    ∀ p ∈ fieldTypes fields, TypeAt n p.2 := by
  intro p hp
  obtain ⟨t, ht, hsome⟩ := List.mem_filterMap.mp hp
  cases h t ht with
  | mk name span htype =>
    cases hsome
    exact htype

theorem typesNotes_silent {types : List (String × Tree)} (h : ∀ p ∈ types, TypeAt n p.2) :
    typesNotes types = [] := by
  unfold typesNotes
  rw [List.flatMap_eq_nil_iff]
  exact fun p hp => lowerNotes_of_type (h p hp)

theorem retNotes_silent {ret : Option Tree} (h : ∀ t ∈ ret, TypeAt n t) (name : String) :
    retNotes name ret = [] := by
  unfold retNotes
  split
  · rfl
  · rw [List.flatMap_eq_nil_iff]
    exact fun t ht => lowerNotes_of_type (h t (Option.mem_toList.mp ht))

theorem signatureNotes_silent {params : List Tree} {ret : Option Tree}
    (hparams : ∀ t ∈ params, ParamAt n t) (hret : ∀ t ∈ ret, TypeAt n t) (name : String) :
    signatureNotes name params ret = [] := by
  unfold signatureNotes
  rw [retNotes_silent hret, typesNotes_silent (paramTypes_typed hparams)]
  exact ite_self _

theorem declareParams_reports {params : List (String × Tree)} (h : ∀ p ∈ params, TypeAt n p.2) :
    Reports (declareParams params) [] := by
  induction params with
  | nil => exact reports_pure _
  | cons p params ih =>
    apply (reports_noNotes (lowerNotes_of_type (h p List.mem_cons_self))).silent
    intro _
    apply (reports_declareVar _ _).silent
    intro _
    exact ih fun q hq => h q (List.mem_cons_of_mem _ hq)

/-- A function reports the offences of its body. -/
theorem functionWriter_reports {params : List Tree} {ret : Option Tree} {body : Tree}
    (hparams : ∀ t ∈ params, ParamAt n t) (hret : ∀ t ∈ ret, TypeAt n t) (hbody : BlockAt n body)
    (name : String) : Reports (functionWriter name params ret body) (offences body) := by
  unfold functionWriter
  apply (declareParams_reports (paramTypes_typed hparams)).silent
  intro _
  apply (reports_noNotes (signatureNotes_silent hparams hret name)).silent
  intro _
  apply (reports_line _ _).silent
  intro _
  apply (block_reports hbody _ true 1).last
  intro _
  split
  · apply (reports_line _ _).silent
    intro _
    apply (reports_line _ _).silent
    exact fun _ => reports_line _ _
  · apply (reports_line _ _).silent
    exact fun _ => reports_line _ _

/-- What is to be said of an item: only functions hold anything that may lack
a C form. -/
def itemOffences : Tree → List Diagnostic
  | .node (.function _ _ _ _ body) _ => offences body
  | _ => []

/-- The types of an item are gone over up to four times, and always in
silence. -/
theorem item_reports {t : Tree} (h : ItemAt n t) (s : Scope) :
    declarationNotes t = [] ∧ prototypeNotes t = [] ∧
      (definitionNotes s t).filterMap Note.diagnostic? = itemOffences t := by
  cases h with
  | function name isPublic span hparams hret hbody =>
    refine ⟨?_, signatureNotes_silent hparams hret name, ?_⟩
    · dsimp only [declarationNotes]
      rw [typesNotes_silent (paramTypes_typed hparams), retNotes_silent hret]
      rfl
    · have hreports := functionWriter_reports hparams hret hbody name
      exact hreports { scope := s.enterFunction }
  | struct name span hfields =>
    exact ⟨typesNotes_silent (fieldTypes_typed hfields), rfl, rfl⟩
  | importPath path span => exact ⟨rfl, rfl, rfl⟩

/-- The diagnostics of the generator are the offences in the functions, in
order. -/
theorem render_diagnostics {t : Tree} (h : ProgramAt n t) (support : SupportForm) :
    (render t support).diagnostics.toList = t.items.flatMap itemOffences := by
  cases h with
  | mk span hitems =>
    have hall (s : Scope) (items : List Tree) (hitems : ∀ t ∈ items, ItemAt n t) :
        (items.flatMap (definitionNotes s)).filterMap Note.diagnostic? =
          items.flatMap itemOffences := by
      induction items with
      | nil => rfl
      | cons t items ih =>
        rw [List.flatMap_cons, List.flatMap_cons, List.filterMap_append,
          (item_reports (hitems t List.mem_cons_self) s).2.2,
          ih fun u hu => hitems u (List.mem_cons_of_mem _ hu)]
    have hdeclared (items : List Tree) (hitems : ∀ t ∈ items, ItemAt n t) :
        items.flatMap declarationNotes = [] ∧ items.flatMap prototypeNotes = [] := by
      rw [List.flatMap_eq_nil_iff, List.flatMap_eq_nil_iff]
      exact ⟨fun t ht => (item_reports (hitems t ht) {}).1,
        fun t ht => (item_reports (hitems t ht) {}).2.1⟩
    obtain ⟨hfirst, hsecond⟩ := hdeclared _ hitems
    rw [Generated.diagnostics, (render_parts _ support).2, Tree.items, hfirst, hsecond]
    exact hall _ _ hitems

end

end Target

end StagedCompiler
