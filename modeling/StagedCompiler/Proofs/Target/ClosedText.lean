import StagedCompiler.Proofs.CSyntax.BracketScan
import StagedCompiler.Proofs.Target.Composition
import StagedCompiler.Proofs.Target.StatementStructure
import StagedCompiler.Proofs.Tree.NodeNames

/-!
Generated text is lexically closed. Names are words, literals are escaped, every
operator has blanks around it, and what a line of a statement opens is closed by
a later line of the same statement. So a scanner never finds a literal that runs
over its line, a comment, or a bracket without its partner, and nothing is open
behind any definition.
-/

namespace StagedCompiler

namespace CScan

open Target

def isBareKind (kind : NodeKind String Tree) : Bool :=
  kind.names.all fun name => decide (Bare name)

/-! ### Types -/

/-- Types of bare names are written without brackets and quotes of their own. -/
theorem inherited_bare : Inherited isBareKind fun t => Bare t.render where
  named {name} h := by
    have hname : Bare name := by simpa [isBareKind, NodeKind.names] using h
    exact bare_append.mpr ⟨by decide, hname⟩
  literal h := by
    rw [isBareKind, NodeKind.names, List.all_cons, Bool.and_eq_true, decide_eq_true_eq] at h
    exact bare_append.mpr ⟨by decide, h.1⟩
  prim p := by cases p <;> decide
  void := by decide
  builtin := by decide
  ptr h := bare_append.mpr ⟨h, by decide⟩
  array _ h := bare_append.mpr ⟨h, by decide⟩
  elem := by
    intro t u h hu
    cases t <;> cases hu <;> exact (bare_append.mp h).1

abbrev BareScope (s : Scope) : Prop :=
  s.Holds fun t => Bare t.render

section

variable {t : CType} {name : String}

theorem bare_base (h : Bare t.render) : Bare t.base.render := by
  induction t with
  | array elem len ih => exact ih (bare_append.mp h).1
  | _ => exact h

theorem balanced_dims (t : CType) : Balanced t.dims := by
  induction t with
  | array elem len ih =>
    have hlen := (bare_of_numeric (Decimal.numeric_toString_nat len)).balanced
    have hopen : Moves "[" [] [']'] := by decide
    exact (hlen.between hopen (by decide)).append ih
  | _ => exact moves_empty []

theorem balanced_declare (h : Bare t.render) (hname : Bare name) : Balanced (t.declare name) := by
  have hblank : Balanced " " := by decide
  exact (((bare_base h).balanced.append hblank).append hname.balanced).append (balanced_dims t)

end

/-! ### Expressions -/

theorem balanced_binary (op : BinaryOp) : Balanced (" " ++ op.text ++ " ") := by
  cases op <;> decide

theorem balanced_assign (op : AssignOp) : Balanced (" " ++ op.text ++ " ") := by
  cases op <;> decide

theorem bare_unary (op : UnaryOp) : Bare op.text := by
  cases op <;> decide

theorem bare_float (x : Double) : Bare (Literal.floatLayout.render x) := by
  have hmagnitude := bare_of_numeric (Decimal.Layout.numeric_magnitude Literal.floatLayout x)
  unfold Decimal.Layout.render
  split_ifs
  iterate 3 decide
  · exact bare_append.mpr ⟨by decide, hmagnitude⟩
  · exact hmagnitude

theorem bare_calleeName {name : String} (h : Bare name) : Bare (calleeName name) := by
  have hall : ∀ b ∈ Builtin.all, Bare b.cName := by decide
  unfold calleeName
  split
  · next b hb => exact hall b (List.mem_of_find?_eq_some hb)
  · exact h

section

variable {text : String}

theorem balanced_parens (h : Balanced text) : Balanced ("(" ++ text ++ ")") := by
  have hopen : Moves "(" [] [')'] := by decide
  exact h.between hopen (by decide)

end

section

variable {s : Scope} {t : Tree} {kind : NodeKind String Tree} {span : Span}

theorem balanced_list {ts : List Tree} {bare : Bool} (h : ∀ t ∈ ts, Balanced (expr s bare t)) :
    Balanced (", ".intercalate (ts.map (expr s bare))) := by
  apply balanced_intercalate (by decide)
  rw [List.forall_mem_map]
  exact h

theorem balanced_callee {callee : Tree} (hnames : callee.all isBareKind = true)
    (h : Balanced (expr s false callee)) : Balanced (calleeText s callee) := by
  obtain ⟨kind, span⟩ := callee
  cases kind with
  | ident name =>
    have hname : Bare name := by
      simpa [isBareKind, NodeKind.names] using (Tree.all_node.mp hnames).1
    exact (bare_calleeName hname).balanced
  | _ => exact h

/-- A type in brackets before a literal, which a literal inside another one goes
without. -/
theorem balanced_cast {type first last : String} {waiting : List Char} (h : Balanced type)
    (bare : Bool) (hfirst : Moves first [] waiting) (hlast : Moves last waiting []) :
    Balanced (if bare then "" else first ++ type ++ last) := by
  split
  · exact moves_empty []
  · exact h.between hfirst hlast

theorem balanced_fieldExprs {fields : List (FieldInit String Tree)}
    (hnames : ∀ field ∈ fields, Bare field.name)
    (hvalues : ∀ field ∈ fields, Balanced (expr s true field.value)) :
    Balanced (", ".intercalate (fieldExprs s #[] fields).toList) := by
  have hdot : Balanced "." := by decide
  have hequals : Balanced " = " := by decide
  rw [fieldExprs_eq, List.nil_append]
  apply balanced_intercalate (by decide)
  rw [List.forall_mem_map]
  intro field hfield
  exact ((hdot.append (hnames field hfield).balanced).append hequals).append
    (hvalues field hfield)

/-- By the structure of the tree; each form closes the brackets it opens. -/
theorem balanced_expr (hs : BareScope s) (h : t.all isBareKind = true) (bare : Bool) :
    Balanced (expr s bare t) := by
  induction t using Tree.induction generalizing bare with
  | step kind span ih =>
    obtain ⟨hkind, hchildren⟩ := Tree.all_node.mp h
    have hchild (t : Tree) (ht : t ∈ kind.children) (bare : Bool) : Balanced (expr s bare t) :=
      ih t ht (hchildren t ht) bare
    cases kind with
    | ident name =>
      have hname : Bare name := by simpa [isBareKind, NodeKind.names] using hkind
      exact hname.balanced
    | int value => exact (bare_of_numeric (Decimal.numeric_toString_int value)).balanced
    | float value =>
      rw [expr]
      split
      · exact (bare_float value).balanced
      · exact moves_empty []
    | str text => exact balanced_string text
    | char value => exact balanced_char value
    | bool value =>
      rw [expr]
      split <;> decide
    | binary op lhs rhs =>
      have hlhs := hchild lhs (by simp [NodeKind.children]) false
      have hrhs := hchild rhs (by simp [NodeKind.children]) false
      have htext : expr s bare (.node (.binary op lhs rhs) span) =
          "(" ++ (expr s false lhs ++ (" " ++ op.text ++ " ") ++ expr s false rhs) ++ ")" := by
        rw [expr]
        simp only [String.append_assoc]
      rw [htext]
      exact balanced_parens ((hlhs.append (balanced_binary op)).append hrhs)
    | unary op operand =>
      have hoperand := hchild operand (by simp [NodeKind.children]) false
      have htext : expr s bare (.node (.unary op operand) span) =
          "(" ++ (op.text ++ expr s false operand) ++ ")" := by
        rw [expr]
        simp only [String.append_assoc]
      rw [htext]
      exact balanced_parens ((bare_unary op).balanced.append hoperand)
    | call callee args =>
      have hcallee := balanced_callee (hchildren callee (by simp [NodeKind.children]))
        (hchild callee (by simp [NodeKind.children]) false)
      have hargs : Balanced (", ".intercalate (args.map (expr s false))) :=
        balanced_list fun t ht => hchild t (by simp [NodeKind.children, ht]) false
      have hopen : Moves "(" [] [')'] := by decide
      rw [expr_call]
      exact hcallee.bracketed hargs hopen (by decide)
    | index base place =>
      have hbase := hchild base (by simp [NodeKind.children]) false
      have hplace := hchild place (by simp [NodeKind.children]) false
      have hopen : Moves "[" [] [']'] := by decide
      rw [expr]
      exact hbase.bracketed hplace hopen (by decide)
    | fieldAccess base field =>
      have hfield : Bare field := by simpa [isBareKind, NodeKind.names] using hkind
      have hmark : Balanced (if isThroughPtr s base then "->" else ".") := by
        split <;> decide
      rw [expr]
      exact ((hchild base (by simp [NodeKind.children]) false).append hmark).append hfield.balanced
    | arrayLit elems =>
      have htype := inherited_bare.holds_inferFirst (s := s) fun t ht =>
        inherited_bare.holds_of_infer hs (hchildren t (by simpa [NodeKind.children] using ht))
      have hparen : Moves "(" [] [')'] := by decide
      have hcast : Balanced (if bare then "" else "(" ++ (inferFirst s elems).render ++ "[])") :=
        balanced_cast htype.balanced bare hparen (by decide)
      have helems := balanced_list fun t ht =>
        hchild t (by simpa [NodeKind.children] using ht) true
      have hopen : Moves "\x7b" [] ['\x7d'] := by decide
      rw [expr, exprs_eq]
      exact hcast.bracketed helems hopen (by decide)
    | structLit name fields =>
      rw [isBareKind, NodeKind.names, List.all_cons, Bool.and_eq_true, decide_eq_true_eq] at hkind
      have hparen : Moves "(struct " [] [')'] := by decide
      have hcast : Balanced (if bare then "" else "(struct " ++ name ++ ")") :=
        balanced_cast hkind.1.balanced bare hparen (by decide)
      have hname (field : FieldInit String Tree) (hfield : field ∈ fields) : Bare field.name := by
        have hall := List.all_eq_true.mp hkind.2 field.name (List.mem_map_of_mem hfield)
        exact of_decide_eq_true hall
      have hvalue (field : FieldInit String Tree) (hfield : field ∈ fields) :
          Balanced (expr s true field.value) := by
        apply hchild
        simpa [NodeKind.children] using ⟨field, hfield, rfl⟩
      have hbraces : Balanced (if fields.isEmpty then "\x7b0\x7d"
          else "\x7b " ++ ", ".intercalate (fieldExprs s #[] fields).toList ++ " \x7d") := by
        split
        · decide
        · have hopen : Moves "\x7b " [] ['\x7d'] := by decide
          exact (balanced_fieldExprs hname hvalue).between hopen (by decide)
      rw [expr]
      exact hcast.append hbraces
    | _ =>
      rw [expr]
      exact moves_empty []
      all_goals simp

theorem balanced_condition (hs : BareScope s) (h : t.all isBareKind = true) :
    Balanced (condition s t) := by
  obtain ⟨kind, span⟩ := t
  cases kind with
  | binary op lhs rhs =>
    have hchildren := (Tree.all_node.mp h).2
    have hlhs := balanced_expr hs (hchildren lhs (by simp [NodeKind.children])) false
    have hrhs := balanced_expr hs (hchildren rhs (by simp [NodeKind.children])) false
    have htext : condition s (.node (.binary op lhs rhs) span) =
        expr s false lhs ++ (" " ++ op.text ++ " ") ++ expr s false rhs := by
      simp only [condition, String.append_assoc]
    rw [htext]
    exact (hlhs.append (balanced_binary op)).append hrhs
  | _ => exact balanced_expr hs h false

end

/-! ### Statements -/

section

variable {α β : Type} {before middle after : List Char} {R : α → Prop} {R' : β → Prop}

/-- The writer goes on from a text that leaves `before` open to one that leaves
`after` open, inside of whatever is open around it. -/
def Scans (w : Writer α) (before after : List Char) (R : α → Prop) : Prop :=
  ∀ (st : WriterState) (around : List Char), BareScope st.scope →
    Moves (String.join st.lines.toList) [] (before ++ around) →
      R (w.run st).1 ∧ BareScope (w.run st).2.scope ∧
        Moves (String.join (w.run st).2.lines.toList) [] (after ++ around)

theorem Scans.bind {w : Writer α} {f : α → Writer β} (hw : Scans w before middle R)
    (hf : ∀ a, R a → Scans (f a) middle after R') : Scans (w >>= f) before after R' := by
  intro st around hscope htext
  obtain ⟨ha, hscope', htext'⟩ := hw st around hscope htext
  exact hf _ ha _ around hscope' htext'

theorem scans_pure {a : α} (h : R a) : Scans (pure a) before before R :=
  fun _ _ hscope htext => ⟨h, hscope, htext⟩

theorem scans_get : Scans get before before fun st : WriterState => BareScope st.scope :=
  fun _ _ hscope htext => ⟨hscope, hscope, htext⟩

theorem scans_note (ns : List Note) : Scans (Writer.note ns) before before fun _ => True :=
  fun _ _ hscope htext => ⟨trivial, hscope, htext⟩

theorem scans_declareVar {t : CType} (h : Bare t.render) (name : String) :
    Scans (Writer.declareVar name t) before before fun _ => True :=
  fun _ _ hscope htext => ⟨trivial, hscope.declareVar h name, htext⟩

/-- A line does to the brackets what its text does. -/
theorem scans_line {text : String} (h : Moves text before after) (depth : Nat) :
    Scans (Writer.line depth text) before after fun _ => True := by
  intro st around hscope htext
  have hindent : Balanced (String.ofList (List.replicate (4 * depth) ' ')) := by
    apply Bare.balanced
    intro c hc
    rw [String.toList_ofList] at hc
    rw [List.eq_of_mem_replicate hc]
    decide
  have hend : Balanced "\n" := by decide
  have hline := ((hindent.moves before).append h).append (hend.moves after)
  have hlines : ((Writer.line depth text).run st).2.lines =
      st.lines.push (String.ofList (List.replicate (4 * depth) ' ') ++ text ++ "\n") := rfl
  refine ⟨trivial, hscope, ?_⟩
  rw [hlines, Array.toList_push, String.join_append, String.join_cons, String.join_nil,
    String.append_empty]
  exact htext.append (hline.frame around)

theorem scans_written {t : Tree} (h : t.all isBareKind = true) :
    Scans (written t) before before Balanced := by
  apply (scans_note _).bind
  intro _ _
  apply scans_get.bind
  intro st hst
  exact scans_pure (balanced_expr hst h false)

theorem scans_writtenCondition {t : Tree} (h : t.all isBareKind = true) :
    Scans (writtenCondition t) before before Balanced := by
  apply (scans_note _).bind
  intro _ _
  apply scans_get.bind
  intro st hst
  exact scans_pure (balanced_condition hst h)

theorem scans_letStmt {name : String} {type init : Option Tree} (hname : Bare name)
    (htype : ∀ t ∈ type, t.all isBareKind = true) (hinit : ∀ e ∈ init, e.all isBareKind = true)
    (depth : Nat) : Scans (letStmt depth name type init) [] [] fun _ => True := by
  apply scans_get.bind
  intro st hst
  have hdeclared := inherited_bare.holds_letType hst htype hinit
  have hdeclare := balanced_declare hdeclared hname
  have hend : Balanced ";" := by decide
  apply (scans_note _).bind
  intro _ _
  cases init with
  | none =>
    apply (scans_line (hdeclare.append hend) depth).bind
    intro _ _
    exact scans_declareVar hdeclared name
  | some e =>
    have hequals : Balanced " = " := by decide
    have hvalue := balanced_expr hst (hinit e rfl) true
    apply (scans_note _).bind
    intro _ _
    apply (scans_line (((hdeclare.append hequals).append hvalue).append hend) depth).bind
    intro _ _
    exact scans_declareVar hdeclared name

end

/-- A statement closes what it opens; behind `else` the last line of a
conditional is closed and opened again. -/
structure Encloses (t : Tree) : Prop where
  stmt (inMain asBody : Bool) (depth : Nat) : Scans (stmt inMain asBody depth t) [] [] fun _ => True
  chain (inMain : Bool) (depth : Nat) :
    Scans (elseChain inMain depth (some t)) ['\x7d'] ['\x7d'] fun _ => True

section

variable {α : Type} {before after : List Char} {R : α → Prop}

/-- Inside of more that is open. -/
theorem Scans.inside {w : Writer α} (h : Scans w before after R) (outer : List Char) :
    Scans w (before ++ outer) (after ++ outer) R := by
  intro st around hscope htext
  rw [List.append_assoc] at htext ⊢
  exact h st (outer ++ around) hscope htext

/-- A condition in parentheses behind a keyword, with the brace that follows. -/
theorem moves_condition {first text : String} (hfirst : Moves first before [')'])
    (h : Balanced text) : Moves (first ++ text ++ ") \x7b") before ['\x7d'] :=
  (hfirst.append (h.moves _)).append (by decide)

variable {inMain : Bool} {depth : Nat}

theorem scans_stmts {ts : List Tree} (h : ∀ t ∈ ts, Encloses t) :
    Scans (stmts inMain depth ts) [] [] fun _ => True := by
  induction ts with
  | nil => exact scans_pure trivial
  | cons t ts ih =>
    apply ((h t (by simp)).stmt inMain false depth).bind
    intro _ _
    exact ih fun t ht => h t (by simp [ht])

theorem scans_elseChain {elseBranch : Option Tree} (h : ∀ t ∈ elseBranch, Encloses t) :
    Scans (elseChain inMain depth elseBranch) ['\x7d'] ['\x7d'] fun _ => True := by
  cases elseBranch with
  | none => exact scans_pure trivial
  | some t => exact (h t rfl).chain inMain depth

theorem scans_body {t : Tree} (h : Encloses t) :
    Scans (stmt inMain true (depth + 1) t) ['\x7d'] ['\x7d'] fun _ => True :=
  (h.stmt inMain true (depth + 1)).inside ['\x7d']

theorem moves_forHead {var start comparison stop : String} (hvar : Bare var)
    (hstart : Balanced start) (hcomparison : Bare comparison) (hstop : Balanced stop) :
    Moves (forHead var start comparison stop) [] ['\x7d'] := by
  have hblank : Balanced " " := by decide
  have hequals : Balanced " = " := by decide
  have hsemicolon : Balanced "; " := by decide
  have hopen : Moves "for (long long " [] [')'] := by decide
  have hinit : Moves ("for (long long " ++ var ++ " = " ++ start ++ "; ") [] [')'] :=
    (((hopen.append (hvar.balanced.moves _)).append (hequals.moves _)).append
      (hstart.moves _)).append (hsemicolon.moves _)
  have htest : Moves ("for (long long " ++ var ++ " = " ++ start ++ "; " ++ var ++ " " ++
      comparison ++ " " ++ stop ++ "; ") [] [')'] :=
    (((((hinit.append (hvar.balanced.moves _)).append (hblank.moves _)).append
      (hcomparison.balanced.moves _)).append (hblank.moves _)).append (hstop.moves _)).append
      (hsemicolon.moves _)
  exact (htest.append (hvar.balanced.moves _)).append (by decide)

theorem scans_forStmt {var : String} {iter body : Tree} (hvar : Bare var)
    (hiter : iter.all isBareKind = true) (hbody : Encloses body) {span : Span} {asBody : Bool} :
    Scans (stmt inMain asBody depth (.node (.forStmt var iter body) span)) [] [] fun _ => True := by
  obtain ⟨kind, place⟩ := iter
  cases kind with
  | range start stop inclusive =>
    have hchildren := (Tree.all_node.mp hiter).2
    rw [stmt]
    apply (scans_written (hchildren start (by simp [NodeKind.children]))).bind
    intro startText hstart
    apply (scans_written (hchildren stop (by simp [NodeKind.children]))).bind
    intro stopText hstop
    apply (scans_declareVar (inherited_bare.holds_int) var).bind
    intro _ _
    have hcomparison : Bare (if inclusive then "<=" else "<") := by
      split <;> decide
    apply (scans_line (moves_forHead hvar hstart hcomparison hstop) depth).bind
    intro _ _
    apply (scans_body hbody).bind
    intro _ _
    exact scans_line (by decide) depth
  | _ =>
    rw [stmt]
    exact scans_note _
    all_goals simp

theorem scans_ifStmt {cond thenBranch : Tree} {elseBranch : Option Tree}
    (hcond : cond.all isBareKind = true) (hthen : Encloses thenBranch)
    (helse : ∀ t ∈ elseBranch, Encloses t) {span : Span} {asBody : Bool} :
    Scans (stmt inMain asBody depth (.node (.ifStmt cond thenBranch elseBranch) span)) [] []
      fun _ => True := by
  have hopen : Moves "if (" [] [')'] := by decide
  rw [stmt]
  apply (scans_writtenCondition hcond).bind
  intro text htext
  apply (scans_line (moves_condition hopen htext) depth).bind
  intro _ _
  apply (scans_body hthen).bind
  intro _ _
  apply (scans_elseChain helse).bind
  intro _ _
  exact scans_line (by decide) depth

theorem scans_whileStmt {cond body : Tree} (hcond : cond.all isBareKind = true)
    (hbody : Encloses body) {span : Span} {asBody : Bool} :
    Scans (stmt inMain asBody depth (.node (.whileStmt cond body) span)) [] [] fun _ => True := by
  have hopen : Moves "while (" [] [')'] := by decide
  rw [stmt]
  apply (scans_writtenCondition hcond).bind
  intro text htext
  apply (scans_line (moves_condition hopen htext) depth).bind
  intro _ _
  apply (scans_body hbody).bind
  intro _ _
  exact scans_line (by decide) depth

/-- A statement closes what it opens if its parts do. -/
theorem scans_stmt {kind : NodeKind String Tree} {span : Span} {asBody : Bool}
    (h : (Tree.node kind span).all isBareKind = true) (hparts : ∀ t ∈ kind.children, Encloses t) :
    Scans (stmt inMain asBody depth (.node kind span)) [] [] fun _ => True := by
  obtain ⟨hkind, hchildren⟩ := Tree.all_node.mp h
  have hend : Balanced ";" := by decide
  cases kind with
  | letStmt name mutable type init =>
    have hname : Bare name := by simpa [isBareKind, NodeKind.names] using hkind
    rw [stmt]
    apply scans_letStmt hname
    · exact fun t ht => hchildren t (by simp [NodeKind.children, Option.mem_toList.mpr ht])
    · exact fun e he => hchildren e (by simp [NodeKind.children, Option.mem_toList.mpr he])
  | assign target op value =>
    rw [stmt]
    apply (scans_written (hchildren target (by simp [NodeKind.children]))).bind
    intro place hplace
    apply (scans_written (hchildren value (by simp [NodeKind.children]))).bind
    intro text htext
    have hline : place ++ " " ++ op.text ++ " " ++ text ++ ";" =
        place ++ (" " ++ op.text ++ " ") ++ text ++ ";" := by
      simp only [String.append_assoc]
    rw [hline]
    exact scans_line (((hplace.append (balanced_assign op)).append htext).append hend) depth
  | returnStmt value =>
    cases value with
    | none =>
      have hreturn : Balanced (if inMain then "return 0;" else "return;") := by
        split <;> decide
      rw [stmt]
      exact scans_line hreturn depth
    | some value =>
      have hreturn : Balanced "return " := by decide
      rw [stmt]
      apply (scans_written (hchildren value (by simp [NodeKind.children]))).bind
      intro text htext
      exact scans_line ((hreturn.append htext).append hend) depth
  | exprStmt e =>
    rw [stmt]
    apply (scans_written (hchildren e (by simp [NodeKind.children]))).bind
    intro text htext
    exact scans_line (htext.append hend) depth
  | ifStmt cond thenBranch elseBranch =>
    apply scans_ifStmt (hchildren cond (by simp [NodeKind.children]))
    · exact hparts thenBranch (by simp [NodeKind.children])
    · exact fun t ht => hparts t (by simp [NodeKind.children, Option.mem_toList.mpr ht])
  | whileStmt cond body =>
    apply scans_whileStmt (hchildren cond (by simp [NodeKind.children]))
    exact hparts body (by simp [NodeKind.children])
  | forStmt var iter body =>
    have hvar : Bare var := by simpa [isBareKind, NodeKind.names] using hkind
    apply scans_forStmt hvar (hchildren iter (by simp [NodeKind.children]))
    exact hparts body (by simp [NodeKind.children])
  | breakStmt | continueStmt =>
    rw [stmt]
    exact scans_line (by decide) depth
  | block body =>
    rw [stmt]
    split
    · exact scans_stmts hparts
    · have hopen : Moves "\x7b" [] ['\x7d'] := by decide
      apply (scans_line hopen depth).bind
      intro _ _
      apply ((scans_stmts hparts).inside ['\x7d']).bind
      intro _ _
      exact scans_line (by decide) depth
  | _ =>
    rw [stmt]
    exact scans_note _
    all_goals simp

/-- A branch that is no conditional gets a brace of its own. -/
theorem scans_else {t : Tree} (h : Scans (stmt inMain true (depth + 1) t) [] [] fun _ => True) :
    Scans (do Writer.line depth "\x7d else \x7b"; stmt inMain true (depth + 1) t)
      ['\x7d'] ['\x7d'] fun _ => True := by
  have hline : Moves "\x7d else \x7b" ['\x7d'] ['\x7d'] := by decide
  apply (scans_line hline depth).bind
  intro _ _
  exact h.inside ['\x7d']

/-- All statements close what they open, by induction on the tree. -/
theorem encloses {t : Tree} (h : t.all isBareKind = true) : Encloses t := by
  induction t using Tree.induction with
  | step kind span ih =>
    have hchildren := (Tree.all_node.mp h).2
    have hparts (t : Tree) (ht : t ∈ kind.children) : Encloses t := ih t ht (hchildren t ht)
    constructor
    · exact fun inMain asBody depth => scans_stmt h hparts
    · intro inMain depth
      have hstmt : Scans (stmt inMain true (depth + 1) (.node kind span)) [] [] fun _ => True :=
        scans_stmt h hparts
      have helse := scans_else hstmt
      cases kind with
      | ifStmt cond thenBranch elseBranch =>
        have hopen : Moves "\x7d else if (" ['\x7d'] [')'] := by decide
        rw [elseChain]
        apply (scans_writtenCondition (hchildren cond (by simp [NodeKind.children]))).bind
        intro text htext
        apply (scans_line (moves_condition hopen htext) depth).bind
        intro _ _
        apply (scans_body (hparts thenBranch (by simp [NodeKind.children]))).bind
        intro _ _
        exact scans_elseChain fun t ht =>
          hparts t (by simp [NodeKind.children, Option.mem_toList.mpr ht])
      | _ => simpa only [elseChain] using helse

end

/-! ### Items -/

section

variable {globals : Scope} {name : String} {params : List Tree} {ret : Option Tree}

theorem scans_declareParams {params : List (String × Tree)}
    (h : ∀ param ∈ params, Bare (lower param.2).render) {before : List Char} :
    Scans (declareParams params) before before fun _ => True := by
  induction params with
  | nil => exact scans_pure trivial
  | cons param params ih =>
    apply (scans_note _).bind
    intro _ _
    apply (scans_declareVar (h param (by simp)) param.1).bind
    intro _ _
    exact ih fun param hparam => h param (by simp [hparam])

/-- The body of a function closes what it opens. -/
theorem balanced_bodyText (hs : BareScope globals) (hparams : ∀ t ∈ params, t.all isBareKind = true)
    {body : Tree} (hbody : body.all isBareKind = true) (inMain : Bool) :
    Balanced (bodyText globals inMain params body) := by
  have hdeclare : Scans (declareParams (paramTypes params)) [] [] fun _ => True :=
    scans_declareParams fun param => inherited_bare.holds_paramTypes hparams
  have hentered := hdeclare { scope := globals.enterFunction } [] hs.enterFunction (moves_empty [])
  have hscanned := (encloses hbody).stmt inMain true 1
    ⟨((declareParams (paramTypes params)).run { scope := globals.enterFunction }).2.scope, #[], #[]⟩
    [] hentered.2.1 (moves_empty [])
  exact hscanned.2.2

theorem bare_param {param : String × Tree} (hparams : ∀ t ∈ params, t.all isBareKind = true)
    (hparam : param ∈ paramTypes params) : Bare param.1 := by
  obtain ⟨⟨kind, span⟩, ht, hsome⟩ := List.mem_filterMap.mp hparam
  cases kind with
  | param name mutable type =>
    cases hsome
    simpa [isBareKind, NodeKind.names] using (Tree.all_node.mp (hparams _ ht)).1
  | _ => cases hsome

/-- The head of a function closes what it opens. -/
theorem balanced_signature (hname : Bare name) (hparams : ∀ t ∈ params, t.all isBareKind = true)
    (hret : ∀ t ∈ ret, t.all isBareKind = true) : Balanced (signature name params ret) := by
  have hresult := (inherited_bare.holds_retType hret name).balanced
  have hblank : Balanced " " := by decide
  have hlist : Balanced (CSyntax.paramText name params) := by
    unfold CSyntax.paramText
    split
    · decide
    · apply balanced_intercalate (by decide)
      rw [List.forall_mem_map]
      intro param hparam
      exact balanced_declare (inherited_bare.holds_paramTypes hparams hparam)
        (bare_param hparams hparam)
  have hopen : Moves "(" [] [')'] := by decide
  rw [CSyntax.signature_eq]
  exact ((hresult.append hblank).append hname.balanced).bracketed hlist hopen (by decide)

theorem balanced_typedef {fields : List (String × CType)} (hname : Bare name)
    (hfields : ∀ field ∈ fields, Bare field.1 ∧ Bare field.2.render) :
    Balanced (typedefText name fields) := by
  have hopen : Moves "typedef struct " [] [] := by decide
  have hbrace : Moves " \x7b\n" [] ['\x7d'] := by decide
  have hlist : Balanced (String.join (fields.map fun field =>
      "    " ++ field.2.declare field.1 ++ ";\n")) := by
    apply balanced_join
    rw [List.forall_mem_map]
    intro field hfield
    have hdeclare := balanced_declare (hfields field hfield).2 (hfields field hfield).1
    have hindent : Balanced "    " := by decide
    exact hdeclare.between hindent (by decide)
  have hhead := (hopen.append hname.balanced).append hbrace
  have hclose : Moves "\x7d " ['\x7d'] [] := by decide
  exact (((hhead.append (hlist.moves _)).append hclose).append hname.balanced).append (by decide)

/-- The fields that a struct is defined with are named as some field of the unit. -/
theorem bare_fields {items : List Tree} (hitems : ∀ t ∈ items, t.all isBareKind = true)
    {fields : List (String × CType)} (h : (declarations items).fields? name = some fields)
    {field : String × CType} (hfield : field ∈ fields) : Bare field.1 := by
  let Named (s : Scope) : Prop := ∀ name fields, s.fields? name = some fields →
    ∀ field ∈ fields, Bare field.1
  have hall : Named (declarations items) := by
    apply List.foldlRecOn (motive := Named) items declareItem
    · intro name fields hnone
      simp [Scope.fields?] at hnone
    intro s hs t ht other fields hfields field hfield
    obtain ⟨kind, span⟩ := t
    cases kind with
    | struct structName members =>
      simp only [declareItem, Scope.declareStruct, Scope.fields?, Std.TreeMap.getElem?_insert]
        at hfields
      split at hfields
      · cases hfields
        obtain ⟨member, hmember, rfl⟩ := List.mem_map.mp hfield
        obtain ⟨⟨memberKind, place⟩, hmem, hsome⟩ := List.mem_filterMap.mp hmember
        have hparts := (Tree.all_node.mp (hitems _ ht)).2 _ hmem
        cases memberKind with
        | field memberName type =>
          cases hsome
          simpa [isBareKind, NodeKind.names] using (Tree.all_node.mp hparts).1
        | _ => cases hsome
      · exact hs other fields hfields field hfield
    | _ => exact hs other fields hfields field hfield
  exact hall name fields h field hfield

/-- What an item adds to each part of a unit is closed. -/
theorem balanced_item {items : List Tree} (hitems : ∀ t ∈ items, t.all isBareKind = true) {t : Tree}
    (ht : t ∈ items) :
    Balanced (itemText (declarations items) t).typedef ∧
      Balanced (itemText (declarations items) t).prototype ∧
      Balanced (itemText (declarations items) t).definition := by
  have hglobals := inherited_bare.holds_declarations hitems
  have hempty := moves_empty []
  obtain ⟨kind, span⟩ := t
  obtain ⟨hkind, hchildren⟩ := Tree.all_node.mp (hitems _ ht)
  cases kind with
  | struct name members =>
    have hname : Bare name := by simpa [isBareKind, NodeKind.names] using hkind
    refine ⟨balanced_typedef hname ?_, hempty, hempty⟩
    intro field hfield
    cases hfields : (declarations items).fields? name with
    | none =>
      rw [hfields] at hfield
      cases hfield
    | some fields =>
      rw [hfields] at hfield
      exact ⟨bare_fields hitems hfields hfield, hglobals.fields name fields hfields field hfield⟩
  | function name isPublic params ret body =>
    have hname : Bare name := by simpa [isBareKind, NodeKind.names] using hkind
    have hparams (t : Tree) (ht : t ∈ params) : t.all isBareKind = true :=
      hchildren t (by simp [NodeKind.children, ht])
    have hhead : Balanced (signature name params ret) := by
      apply balanced_signature hname hparams
      exact fun t ht => hchildren t (by simp [NodeKind.children, Option.mem_toList.mpr ht])
    have hbody := balanced_bodyText hglobals hparams
      (hchildren body (by simp [NodeKind.children])) (decide (name = "main"))
    have hsemicolon : Balanced ";\n" := by decide
    have hopen : Moves " \x7b\n" [] ['\x7d'] := by decide
    have hexit : Balanced (if decide (name = "main") then "    return 0;\n" else "") := by
      split <;> decide
    refine ⟨hempty, ?_, ?_⟩
    · rw [itemText]
      split
      · exact hempty
      · exact hhead.append hsemicolon
    · exact (((Moves.append hhead hopen).append (hbody.moves _)).append (hexit.moves _)).append
        (by decide)
  | _ => exact ⟨hempty, hempty, hempty⟩

end

/-! ### Units -/

end CScan

namespace Target

/-- The support library in its parts, one for each prototype or definition. -/
def supportParts : SupportForm → List String
  | .declarations => Builtin.all.map fun b => b.prototype ++ "\n"
  | .embedded =>
    Support.lines Support.printCode :: List.map (fun code => "\n" ++ Support.lines code)
      [Support.printIntCode, Support.stringLenCode, Support.stringConcatCode,
        Support.stringCharAtCode, Support.stringFromCharCode, Support.intToStringCode,
        Support.fileTableCode, Support.fileGetCode, Support.fileOpenCode, Support.fileReadAllCode,
        Support.fileWriteCode, Support.fileCloseCode]

/-- A unit in its parts, each of which ends a directive, a struct definition, a
prototype or a function definition, or is an empty line. -/
def unitParts (support : SupportForm) (items : List ItemText) : List String :=
  [Support.headers, "\n"] ++ supportParts support ++ ["\n"] ++ items.map (·.typedef) ++
    items.map (·.prototype) ++
    (if String.join (items.map (·.prototype)) = "" then [] else ["\n"]) ++
    items.map (·.definition)

theorem intercalate_eq_join (mark first : String) (rest : List String) :
    mark.intercalate (first :: rest) = first ++ String.join (rest.map (mark ++ ·)) := by
  induction rest generalizing first with
  | nil => simp
  | cons second rest ih =>
    rw [String.intercalate_cons_cons, ih, List.map_cons, String.join_cons]
    simp only [String.append_assoc]

theorem supportText_eq (support : SupportForm) :
    supportText support = String.join (supportParts support) := by
  cases support with
  | declarations =>
    rw [supportText, Support.declarations, Support.lines, List.map_map]
    rfl
  | embedded =>
    rw [supportText, Support.embedded, List.map_cons, intercalate_eq_join, List.map_map]
    exact String.join_cons.symm

theorem unitText_eq (support : SupportForm) (items : List ItemText) :
    unitText support items = String.join (unitParts support items) := by
  unfold unitText unitParts
  rw [supportText_eq]
  simp only [String.join_append, String.join_cons, String.join_nil, String.append_empty]
  split
  · next hnone => simp [hnone]
  · simp [String.append_assoc]

end Target

namespace CScan

theorem balanced_prototypes : ∀ b ∈ Target.Builtin.all, Balanced (b.prototype ++ "\n") := by
  simp only [Target.Builtin.all, Target.Builtin.prototype, List.forall_mem_cons, Balanced, Moves,
    String.intercalate_cons_cons, String.intercalate_singleton, String.toList_append]
  -- As lists of characters the texts are scanned faster.
  repeat rw [String.toList_ofList]
  decide +kernel

theorem balanced_printCode : Balanced (Target.Support.lines Target.Support.printCode) := by
  simp only [Target.Support.lines, Target.Support.printCode, List.map_cons, List.map_nil,
    String.join_cons, String.join_nil, Balanced, Moves, String.toList_append]
  repeat rw [String.toList_ofList]
  decide +kernel

theorem balanced_supportParts (support : SupportForm) :
    ∀ part ∈ Target.supportParts support, Balanced part := by
  cases support with
  | declarations =>
    rw [Target.supportParts, List.forall_mem_map]
    exact balanced_prototypes
  | embedded =>
    rw [Target.supportParts, List.forall_mem_cons, List.forall_mem_map]
    refine ⟨balanced_printCode, ?_⟩
    simp only [Target.Support.lines, Target.Support.printIntCode, Target.Support.stringLenCode,
      Target.Support.stringConcatCode, Target.Support.stringCharAtCode,
      Target.Support.stringFromCharCode, Target.Support.intToStringCode,
      Target.Support.fileTableCode, Target.Support.fileGetCode, Target.Support.fileOpenCode,
      Target.Support.fileReadAllCode, Target.Support.fileWriteCode, Target.Support.fileCloseCode,
      List.forall_mem_cons, List.map_cons, List.map_nil, String.join_cons, String.join_nil,
      Balanced, Moves, String.toList_append]
    repeat rw [String.toList_ofList]
    decide +kernel

theorem balanced_unitParts {support : SupportForm} {items : List Target.ItemText}
    (h : ∀ item ∈ items,
      Balanced item.typedef ∧ Balanced item.prototype ∧ Balanced item.definition) :
    ∀ part ∈ Target.unitParts support items, Balanced part := by
  have hheaders : ∀ part ∈ [Target.Support.headers, "\n"], Balanced part := by decide +kernel
  have hline : ∀ part ∈ ["\n"], Balanced part := by decide
  unfold Target.unitParts
  simp only [List.forall_mem_append, List.forall_mem_map]
  refine ⟨⟨⟨⟨⟨⟨hheaders, balanced_supportParts support⟩, hline⟩, ?_⟩, ?_⟩, ?_⟩, ?_⟩
  · exact fun item hitem => (h item hitem).1
  · exact fun item hitem => (h item hitem).2.1
  · split
    · simp
    · exact hline
  · exact fun item hitem => (h item hitem).2.2

/-- Words have plain characters only. -/
theorem bare_of_word {text : String} (h : IsWord text) : Bare text := by
  obtain ⟨lexeme, rfl, hparts⟩ := h
  apply bare_of_class (p := fun c => Byte.isWordPart (.ofNat c.toNat)) (by decide)
  intro c hc
  rw [Text.ofLatin1, String.toList_ofList] at hc
  obtain ⟨b, hb, rfl⟩ := List.mem_map.mp hc
  rw [Text.toNat_ofNat_byte, UInt8.ofNat_toNat]
  exact hparts b hb

end CScan

open CScan

section

variable {src : String} {opts : Options} {parsed : Parsed}

theorem ordered_of_parseSource (h : parseSource src opts = .ok parsed) :
    parsed.ast.arena.Ordered := by
  obtain ⟨lexed, -, hread⟩ := lexed_of_parseSource h
  obtain ⟨s, root, dropped, hs, -, -, rfl⟩ := readProgram_history hread
  exact hs.forest.earlier

/-- What holds of words, and of the name that stands for missing ones, holds of
all names of a unit. -/
theorem names_of_parseSource (h : parseSource src opts = .ok parsed) {p : String → Bool}
    (hword : ∀ text, IsWord text → p text = true) (hmissing : p Parser.missingName = true) :
    parsed.ast.tree.all (·.names.all p) = true := by
  apply (ordered_of_parseSource h).all_treeOf rfl
  intro id n hn
  rw [NodeKind.names_map, List.all_map, List.all_eq_true]
  intro sym hsym
  obtain ⟨text, htext, hname⟩ := parsed_names h (Array.mem_of_getElem? hn) hsym
  rw [Function.comp_apply, Interner.resolve, htext, Option.getD_some]
  rcases hname with hname | rfl
  · exact hword text hname
  · exact hmissing

theorem bare_of_parseSource (h : parseSource src opts = .ok parsed) :
    parsed.ast.tree.all isBareKind = true :=
  names_of_parseSource h (fun _ hword => decide_eq_true (bare_of_word hword)) (by decide)

theorem bare_items (h : parseSource src opts = .ok parsed) :
    ∀ t ∈ parsed.ast.itemTrees, t.all isBareKind = true := by
  have htree := bare_of_parseSource h
  rw [← Ast.tree_items (ordered_of_parseSource h)]
  generalize parsed.ast.tree = t at htree ⊢
  obtain ⟨kind, span⟩ := t
  cases kind with
  | program items => exact (Tree.all_node.mp htree).2
  | _ => simp [Tree.items]

theorem balanced_parts (h : parseSource src opts = .ok parsed) (support : SupportForm) :
    ∀ part ∈ Target.unitParts support parsed.ast.itemTexts, Balanced part := by
  apply balanced_unitParts
  unfold Ast.itemTexts
  rw [List.forall_mem_map]
  exact fun t ht => balanced_item (bare_items h) ht

/-- The text generated for a unit is lexically closed: literals end on their
line, brackets outside of them are balanced and nested, and there is no comment.
The same holds of the text up to the end of any struct definition, prototype or
function definition, the support library's included. -/
theorem generated_text_closed (h : parseSource src opts = .ok parsed) (target : Options) :
    ∃ g, Target.generate parsed.ast (target.inMode .lenient) = .ok g ∧ Closed g.c ∧
      g.c = String.join (Target.unitParts target.support parsed.ast.itemTexts) ∧
      ∀ n, Closed
        (String.join ((Target.unitParts target.support parsed.ast.itemTexts).take n)) := by
  have hparts := balanced_parts h target.support
  have htext : (Target.render parsed.ast.tree target.support).c =
      String.join (Target.unitParts target.support parsed.ast.itemTexts) := by
    rw [Target.render_eq, Ast.tree_items (ordered_of_parseSource h), Target.unitText_eq]
    rfl
  refine ⟨_, generate_lenient target parsed.ast, ?_, htext, fun n => ?_⟩
  · rw [htext]
    exact (balanced_join hparts).closed
  · apply Balanced.closed
    exact balanced_join fun part hpart => hparts part (List.mem_of_mem_take hpart)

/-- Quotes and brackets in literals, a quotient by what a pointer leads to, an
`else` chain, and a function without a name. -/
def closedSample : String :=
  "struct P \x7b x: [&u8; 2] \x7d fn (p: &P) \x7b if a / *p \x7b print(\"/*\\\"(\"); \x7d " ++
    "else if b == '\\'' \x7b \x7d else \x7b let c = [[1], d]; \x7d \x7d"

theorem generated_text_closed_sample :
    ∃ parsed, parseSource closedSample {} = .ok parsed ∧
      ∃ g, Target.generate parsed.ast (Options.inMode { support := .embedded } .lenient) = .ok g ∧
        Closed g.c ∧ g.c = String.join (Target.unitParts .embedded parsed.ast.itemTexts) ∧
        ∀ n, Closed (String.join ((Target.unitParts .embedded parsed.ast.itemTexts).take n)) := by
  have hok : (parseSource closedSample {}).isOk = true := by decide +kernel
  obtain ⟨parsed, hparsed⟩ := exists_of_isOk hok
  exact ⟨parsed, hparsed, generated_text_closed hparsed { support := .embedded }⟩

end

end StagedCompiler
