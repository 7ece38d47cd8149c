import StagedCompiler.Proofs.Target.Composition
import StagedCompiler.Proofs.Target.StatementStructure

/-!
Where expressions stand in a generated definition. A body is gone through in
the order of its text, and each expression that a statement writes is listed
with the variables known there; the definition holds the texts of these
expressions in that order. An expression holds the texts of its parts in turn.
So whatever is true of the text of an expression is true of a place in the
generated unit.
-/

namespace StagedCompiler.Target

/-! ### Texts in a text -/

inductive Threaded : List String → String → Prop
  | nil (text : String) : Threaded [] text
  | cons {parts : List String} {rest : String} (gap part : String) :
      Threaded parts rest → Threaded (part :: parts) (gap ++ part ++ rest)

namespace Threaded

variable {parts parts' : List String} {text text' : String}

theorem prepend (h : Threaded parts text) (before : String) : Threaded parts (before ++ text) := by
  cases h with
  | nil => exact .nil _
  | cons gap part h =>
    have hcons := Threaded.cons (before ++ gap) part h
    simpa only [String.append_assoc] using hcons

theorem append (h : Threaded parts text) (h' : Threaded parts' text') :
    Threaded (parts ++ parts') (text ++ text') := by
  induction h with
  | nil text => exact h'.prepend text
  | cons gap part h ih =>
    rw [List.cons_append, String.append_assoc]
    exact .cons gap part ih

theorem followed (h : Threaded parts text) (after : String) : Threaded parts (text ++ after) := by
  have happend := h.append (.nil after)
  rwa [List.append_nil] at happend

theorem single (text : String) : Threaded [text] text := by
  have hcons := Threaded.cons "" text (.nil "")
  rwa [String.empty_append, String.append_empty] at hcons

/-- Each part stands somewhere. -/
theorem exists_of_mem (h : Threaded parts text) {part : String} (hpart : part ∈ parts) :
    ∃ before after, text = before ++ part ++ after := by
  induction h with
  | nil => cases hpart
  | @cons parts rest gap first h ih =>
    rcases List.mem_cons.mp hpart with rfl | hpart
    · exact ⟨gap, rest, rfl⟩
    · obtain ⟨before, after, rfl⟩ := ih hpart
      refine ⟨gap ++ first ++ before, after, ?_⟩
      simp only [String.append_assoc]

theorem intercalate {α : Type} {f : α → List String} {g : α → String} (sep : String)
    {xs : List α} (h : ∀ x ∈ xs, Threaded (f x) (g x)) :
    Threaded (xs.flatMap f) (sep.intercalate (xs.map g)) := by
  induction xs with
  | nil => exact .nil _
  | cons x xs ih =>
    have hfirst := h x List.mem_cons_self
    have hrest := ih fun y hy => h y (List.mem_cons_of_mem _ hy)
    cases xs with
    | nil =>
      rw [List.map_singleton, String.intercalate_singleton, List.flatMap_singleton]
      exact hfirst
    | cons y ys =>
      rw [List.map_cons, List.map_cons, String.intercalate_cons_cons, List.flatMap_cons]
      exact (hfirst.followed sep).append hrest

end Threaded

/-! ### Parts of expressions -/

/-- The parts whose texts an expression writes, with whether their literals
stand bare. A callee that is a name is written by its C name. -/
def exprParts : NodeKind String Tree → List (Bool × Tree)
  | .binary _ lhs rhs => [(false, lhs), (false, rhs)]
  | .unary _ operand => [(false, operand)]
  | .call (.node (.ident _) _) args => args.map (false, ·)
  | .call callee args => (false, callee) :: args.map (false, ·)
  | .index base place => [(false, base), (false, place)]
  | .fieldAccess base _ => [(false, base)]
  | .arrayLit elems => elems.map (true, ·)
  | .structLit _ fields => fields.map fun field => (true, field.value)
  | _ => []

section

variable (s : Scope)

theorem threaded_exprs (bare : Bool) (ts : List Tree) :
    Threaded (ts.map (expr s bare)) (", ".intercalate (ts.map (expr s bare))) := by
  have heach (t : Tree) (_ : t ∈ ts) : Threaded [expr s bare t] (expr s bare t) := .single _
  have hall := Threaded.intercalate ", " heach
  rwa [← List.map_eq_flatMap] at hall

theorem threaded_fieldExprs (fields : List (FieldInit String Tree)) :
    Threaded (fields.map fun field => expr s true field.value)
      (", ".intercalate (fields.map fun field =>
        "." ++ field.name ++ " = " ++ expr s true field.value)) := by
  have heach (field : FieldInit String Tree) (_ : field ∈ fields) :
      Threaded [expr s true field.value]
        ("." ++ field.name ++ " = " ++ expr s true field.value) :=
    (Threaded.single _).prepend _
  have hall := Threaded.intercalate ", " heach
  rwa [← List.map_eq_flatMap] at hall

theorem threaded_call (bare : Bool) (callee : Tree) (args : List Tree) (span : Span) :
    Threaded ((exprParts (.call callee args)).map fun part => expr s part.1 part.2)
      (expr s bare (.node (.call callee args) span)) := by
  have hargs := ((threaded_exprs s false args).prepend "(").followed ")"
  have hcall : expr s bare (.node (.call callee args) span) = calleeText s callee ++
      ("(" ++ ", ".intercalate (args.map (expr s false)) ++ ")") := by
    rw [expr_call]
    simp only [String.append_assoc]
  have hmap : (args.map (false, ·)).map (fun part : Bool × Tree => expr s part.1 part.2) =
      args.map (expr s false) := by
    rw [List.map_map]
    rfl
  obtain ⟨kind, place⟩ := callee
  rw [hcall]
  cases kind with
  | ident name =>
    rw [exprParts, hmap]
    exact hargs.prepend _
  | _ =>
    rw [exprParts, List.map_cons, hmap]
    · exact (Threaded.single _).append hargs
    · rintro _ _ ⟨⟩

/-- The parts of an expression stand in its text, in their order. -/
theorem threaded_expr (bare : Bool) (kind : NodeKind String Tree) (span : Span) :
    Threaded ((exprParts kind).map fun part => expr s part.1 part.2)
      (expr s bare (.node kind span)) := by
  cases kind with
  | binary op lhs rhs =>
    have hleft := ((Threaded.single (expr s false lhs)).prepend "(").followed " "
    have hboth := ((hleft.followed op.text).followed " ").append (.single (expr s false rhs))
    rw [expr]
    exact hboth.followed ")"
  | unary op operand =>
    have hoperand := (Threaded.single (expr s false operand)).prepend ("(" ++ op.text)
    rw [expr]
    exact hoperand.followed ")"
  | call callee args => exact threaded_call s bare callee args span
  | index base place =>
    have hbase := (Threaded.single (expr s false base)).followed "["
    rw [expr]
    exact (hbase.append (.single (expr s false place))).followed "]"
  | fieldAccess base field =>
    have hbase := (Threaded.single (expr s false base)).followed
      (if isThroughPtr s base then "->" else ".")
    rw [expr]
    exact hbase.followed field
  | arrayLit elems =>
    have hmap : (elems.map (true, ·)).map (fun part : Bool × Tree => expr s part.1 part.2) =
        elems.map (expr s true) := by
      rw [List.map_map]
      rfl
    rw [expr, exprParts, hmap, exprs_eq]
    exact ((threaded_exprs s true elems).prepend _).followed _
  | structLit name fields =>
    have hmap : (fields.map fun field => (true, field.value)).map
        (fun part : Bool × Tree => expr s part.1 part.2) =
          fields.map fun field => expr s true field.value := by
      rw [List.map_map]
      rfl
    rw [expr, exprParts, hmap, fieldExprs_eq]
    apply Threaded.prepend
    cases fields with
    | nil => exact .nil _
    | cons field fields => exact ((threaded_fieldExprs s (field :: fields)).prepend _).followed _
  | _ => exact .nil _

end

/-! ### Sites -/

structure Site where
  scope : Scope
  bare : Bool
  tree : Tree

namespace Site

def text (site : Site) : String :=
  expr site.scope site.bare site.tree

def parts (site : Site) : List Site :=
  (exprParts site.tree.kind).map fun part => ⟨site.scope, part.1, part.2⟩

inductive Shows : Site → Site → Prop
  | self (site : Site) : Shows site site
  | part {site part inner : Site} : part ∈ site.parts → Shows part inner → Shows site inner

theorem threaded_parts (site : Site) : Threaded (site.parts.map text) site.text := by
  obtain ⟨s, bare, ⟨kind, span⟩⟩ := site
  have hmap : (parts ⟨s, bare, .node kind span⟩).map text =
      (exprParts kind).map fun part => expr s part.1 part.2 := by
    rw [parts, List.map_map]
    rfl
  rw [hmap]
  exact threaded_expr s bare kind span

/-- A site that is shown has its text inside the outer one. -/
theorem Shows.exists_text {site inner : Site} (h : site.Shows inner) :
    ∃ before after, site.text = before ++ inner.text ++ after := by
  induction h with
  | self site => exact ⟨"", "", by simp⟩
  | @part site part inner hpart _ ih =>
    obtain ⟨before, after, hinner⟩ := ih
    obtain ⟨first, last, hsite⟩ := site.threaded_parts.exists_of_mem (List.mem_map_of_mem hpart)
    refine ⟨first ++ before, after ++ last, ?_⟩
    rw [hsite, hinner]
    simp only [String.append_assoc]

theorem Shows.scope_eq {site inner : Site} (h : site.Shows inner) : inner.scope = site.scope := by
  induction h with
  | self => rfl
  | part hpart _ ih =>
    obtain ⟨_, _, rfl⟩ := List.mem_map.mp hpart
    exact ih

end Site

/-- The expressions of a condition; the outermost operator is written without
parentheses of its own. -/
def conditionSites (s : Scope) : Tree → List Site
  | .node (.binary _ lhs rhs) _ => [⟨s, false, lhs⟩, ⟨s, false, rhs⟩]
  | t => [⟨s, false, t⟩]

mutual

/-- The expressions that a statement writes, in the order of its text, and what
is known behind it. -/
def stmtSites (s : Scope) : Tree → List Site × Scope
  | .node (.letStmt name _ type init) _ =>
    (init.toList.map (⟨s, true, ·⟩), s.declareVar name (letType s type init))
  | .node (.assign target _ value) _ => ([⟨s, false, target⟩, ⟨s, false, value⟩], s)
  | .node (.returnStmt value) _ => (value.toList.map (⟨s, false, ·⟩), s)
  | .node (.exprStmt e) _ => ([⟨s, false, e⟩], s)
  | .node (.ifStmt cond thenBranch elseBranch) _ =>
    let yes := stmtSites s thenBranch
    let no := elseSites yes.2 elseBranch
    (conditionSites s cond ++ (yes.1 ++ no.1), no.2)
  | .node (.whileStmt cond body) _ =>
    let inner := stmtSites s body
    (conditionSites s cond ++ inner.1, inner.2)
  | .node (.forStmt var (.node (.range start stop _) _) body) _ =>
    let inner := stmtSites (s.declareVar var .int) body
    ([⟨s, false, start⟩, ⟨s, false, stop⟩] ++ inner.1, inner.2)
  | .node (.block body) _ => stmtsSites s body
  | _ => ([], s)

def stmtsSites (s : Scope) : List Tree → List Site × Scope
  | [] => ([], s)
  | t :: ts =>
    let first := stmtSites s t
    let rest := stmtsSites first.2 ts
    (first.1 ++ rest.1, rest.2)

def elseSites (s : Scope) : Option Tree → List Site × Scope
  | none => ([], s)
  | some t => stmtSites s t

end

def functionSites (globals : Scope) (params : List Tree) (body : Tree) : List Site :=
  (stmtSites (CSyntax.bindParams globals.enterFunction (paramTypes params)) body).1

/-! ### Writers -/

/-- Writing leads from the first scope to the second, and the lines that it adds
hold the texts of the sites. -/
def Places (w : Writer Unit) (s s' : Scope) (sites : List Site) : Prop :=
  ∀ st : WriterState, st.scope = s → (w.run st).2.scope = s' ∧
    ∃ lines : List String, (w.run st).2.lines.toList = st.lines.toList ++ lines ∧
      Threaded (sites.map Site.text) (String.join lines)

section

variable {w w' : Writer Unit} {s s' s'' : Scope} {sites sites' : List Site}

theorem Places.bind (h : Places w s s' sites) (h' : Places w' s' s'' sites') :
    Places (w >>= fun _ => w') s s'' (sites ++ sites') := by
  intro st hst
  obtain ⟨hscope, lines, hlines, hthreaded⟩ := h st hst
  obtain ⟨hscope', lines', hlines', hthreaded'⟩ := h' _ hscope
  have hrun : (w >>= fun _ => w').run st = w'.run (w.run st).2 := rfl
  rw [hrun]
  refine ⟨hscope', lines ++ lines', ?_, ?_⟩
  · rw [hlines', hlines, List.append_assoc]
  · rw [List.map_append, String.join_append]
    exact hthreaded.append hthreaded'

theorem Places.silent (h : Places w s s' []) (h' : Places w' s' s'' sites) :
    Places (w >>= fun _ => w') s s'' sites :=
  h.bind h'

theorem Places.last (h : Places w s s' sites) (h' : Places w' s' s'' []) :
    Places (w >>= fun _ => w') s s'' sites := by
  have hbind := h.bind h'
  rwa [List.append_nil] at hbind

theorem places_pure : Places (pure ()) s s [] := by
  intro st hst
  exact ⟨hst, [], (List.append_nil _).symm, .nil _⟩

theorem places_note (ns : List Note) : Places (Writer.note ns) s s [] := by
  intro st hst
  exact ⟨hst, [], (List.append_nil _).symm, .nil _⟩

theorem places_declareVar (name : String) (t : CType) :
    Places (Writer.declareVar name t) s (s.declareVar name t) [] := by
  intro st hst
  rw [← hst]
  exact ⟨rfl, [], (List.append_nil _).symm, .nil _⟩

theorem places_line (depth : Nat) {text : String} (h : Threaded (sites.map Site.text) text) :
    Places (Writer.line depth text) s s sites := by
  intro st hst
  refine ⟨hst, [_], Array.toList_push, ?_⟩
  rw [String.join_cons, String.join_nil, String.append_empty]
  exact (h.prepend _).followed _

/-- A line without expressions. -/
theorem places_mark (depth : Nat) (text : String) : Places (Writer.line depth text) s s [] :=
  places_line depth (.nil text)

theorem places_get {k : WriterState → Writer Unit}
    (h : ∀ st, st.scope = s → Places (k st) s s' sites) : Places (get >>= k) s s' sites :=
  fun st hst => h st hst st hst

theorem places_written {t : Tree} {k : String → Writer Unit}
    (h : Places (k (expr s false t)) s s' sites) : Places (written t >>= k) s s' sites := by
  intro st hst
  have hrun := h ((Writer.note (exprNotes t)).run st).2 hst
  rw [← hst] at hrun
  exact hrun

theorem places_writtenCondition {t : Tree} {k : String → Writer Unit}
    (h : Places (k (condition s t)) s s' sites) :
    Places (writtenCondition t >>= k) s s' sites := by
  intro st hst
  have hrun := h ((Writer.note (exprNotes t)).run st).2 hst
  rw [← hst] at hrun
  exact hrun

end

/-! ### Statements -/

theorem threaded_condition (s : Scope) (t : Tree) :
    Threaded ((conditionSites s t).map Site.text) (condition s t) := by
  obtain ⟨kind, span⟩ := t
  cases kind with
  | binary op lhs rhs =>
    have hleft := ((Threaded.single (expr s false lhs)).followed " ").followed op.text
    exact (hleft.followed " ").append (.single (expr s false rhs))
  | _ => exact .single _

/-- A statement and the branch that it is behind a conditional both write the
expressions of its sites. -/
structure Placed (t : Tree) : Prop where
  stmt : ∀ inMain asBody depth s,
    Places (stmt inMain asBody depth t) s (stmtSites s t).2 (stmtSites s t).1
  elseChain : ∀ inMain depth s,
    Places (elseChain inMain depth (some t)) s (stmtSites s t).2 (stmtSites s t).1

section

variable (inMain : Bool)

theorem places_letStmt (depth : Nat) (name : String) (mutable : Bool) (type init : Option Tree)
    (span : Span) (s : Scope) :
    Places (letStmt depth name type init) s
      (stmtSites s (.node (.letStmt name mutable type init) span)).2
      (stmtSites s (.node (.letStmt name mutable type init) span)).1 := by
  rw [stmtSites, letStmt]
  apply places_get
  rintro st rfl
  apply (places_note _).silent
  cases init with
  | none => exact (places_mark _ _).silent (places_declareVar name _)
  | some e =>
    have hline := ((Threaded.single (expr st.scope true e)).prepend
      ((letType st.scope type (some e)).declare name ++ " = ")).followed ";"
    have hsites : Places (Writer.line depth ((letType st.scope type (some e)).declare name ++
        " = " ++ expr st.scope true e ++ ";")) st.scope st.scope [⟨st.scope, true, e⟩] :=
      places_line depth hline
    exact (places_note _).silent (hsites.last (places_declareVar name _))

theorem places_stmts {ts : List Tree} (h : ∀ t ∈ ts, Placed t) (depth : Nat) (s : Scope) :
    Places (stmts inMain depth ts) s (stmtsSites s ts).2 (stmtsSites s ts).1 := by
  induction ts generalizing s with
  | nil => exact places_pure
  | cons t ts ih =>
    have hfirst := (h t List.mem_cons_self).stmt inMain false depth s
    exact hfirst.bind (ih (fun u hu => h u (List.mem_cons_of_mem _ hu)) _)

theorem places_elseChain {elseBranch : Option Tree} (h : ∀ t ∈ elseBranch, Placed t) (depth : Nat)
    (s : Scope) :
    Places (elseChain inMain depth elseBranch) s (elseSites s elseBranch).2
      (elseSites s elseBranch).1 := by
  cases elseBranch with
  | none =>
    rw [elseChain, elseSites]
    exact places_pure
  | some t =>
    rw [elseSites]
    exact (h t rfl).elseChain inMain depth s

/-- The head of a conditional or a loop, and what stands under it. -/
theorem places_headed {w : Writer Unit} {s s' : Scope} {sites : List Site} (cond : Tree)
    (before : String) (depth : Nat) (h : Places w s s' sites) :
    Places (do Writer.line depth (before ++ (← writtenCondition cond) ++ ") \x7b"); w) s s'
      (conditionSites s cond ++ sites) := by
  apply places_writtenCondition
  have hline := ((threaded_condition s cond).prepend before).followed ") \x7b"
  exact (places_line depth hline).bind h

theorem threaded_forHead (var start comparison stop : String) :
    Threaded [start, stop] (forHead var start comparison stop) := by
  have hstart := ((Threaded.single start).prepend ("for (long long " ++ var ++ " = ")).followed "; "
  have htest := (((hstart.followed var).followed " ").followed comparison).followed " "
  exact (((htest.append (.single stop)).followed "; ").followed var).followed "++) \x7b"

theorem places_forStmt {var : String} {iter body : Tree} (hbody : Placed body) (asBody : Bool)
    (depth : Nat) (span : Span) (s : Scope) :
    Places (stmt inMain asBody depth (.node (.forStmt var iter body) span)) s
      (stmtSites s (.node (.forStmt var iter body) span)).2
      (stmtSites s (.node (.forStmt var iter body) span)).1 := by
  obtain ⟨kind, place⟩ := iter
  cases kind with
  | range start stop inclusive =>
    have hhead : Threaded ([⟨s, false, start⟩, ⟨s, false, stop⟩].map Site.text)
        (forHead var (expr s false start) (if inclusive then "<=" else "<") (expr s false stop)) :=
      threaded_forHead _ _ _ _
    have hinner := (hbody.stmt inMain true (depth + 1) (s.declareVar var .int)).last
      (places_mark depth "\x7d")
    rw [stmt, stmtSites]
    apply places_written
    apply places_written
    -- both ends are written before the variable is known
    apply (places_declareVar var .int).silent
    exact (places_line depth hhead).bind hinner
  | _ => exact places_note _

/-- The expressions of a statement stand in its lines if those of its parts do. -/
theorem places_stmt {kind : NodeKind String Tree} (hparts : ∀ t ∈ kind.children, Placed t)
    (asBody : Bool) (depth : Nat) (span : Span) (s : Scope) :
    Places (stmt inMain asBody depth (.node kind span)) s (stmtSites s (.node kind span)).2
      (stmtSites s (.node kind span)).1 := by
  cases kind with
  | letStmt name mutable type init =>
    rw [stmt]
    exact places_letStmt depth name mutable type init span s
  | assign target op value =>
    have hleft := (((Threaded.single (expr s false target)).followed " ").followed op.text).followed
      " "
    have hline := (hleft.append (.single (expr s false value))).followed ";"
    rw [stmt, stmtSites]
    apply places_written
    apply places_written
    exact places_line depth hline
  | returnStmt value =>
    cases value with
    | none =>
      rw [stmt, stmtSites]
      exact places_mark _ _
    | some value =>
      have hline := ((Threaded.single (expr s false value)).prepend "return ").followed ";"
      rw [stmt, stmtSites]
      apply places_written
      exact places_line depth hline
  | exprStmt e =>
    have hline := (Threaded.single (expr s false e)).followed ";"
    rw [stmt, stmtSites]
    apply places_written
    exact places_line depth hline
  | ifStmt cond thenBranch elseBranch =>
    have hthen := (hparts thenBranch (by simp [NodeKind.children])).stmt inMain true (depth + 1) s
    have hbranches (t : Tree) (ht : t ∈ elseBranch) : Placed t :=
      hparts t (by simp [NodeKind.children, Option.mem_toList.mpr ht])
    have helse := places_elseChain inMain hbranches depth (stmtSites s thenBranch).2
    rw [stmt, stmtSites]
    exact places_headed cond "if (" depth (hthen.bind (helse.last (places_mark depth "\x7d")))
  | whileStmt cond body =>
    have hbody := (hparts body (by simp [NodeKind.children])).stmt inMain true (depth + 1) s
    rw [stmt, stmtSites]
    exact places_headed cond "while (" depth (hbody.last (places_mark depth "\x7d"))
  | forStmt var iter body =>
    exact places_forStmt inMain (hparts body (by simp [NodeKind.children])) asBody depth span s
  | breakStmt => exact places_mark _ _
  | continueStmt => exact places_mark _ _
  | block body =>
    have hstmts (depth : Nat) := places_stmts inMain
      (fun t ht => hparts t (by simpa [NodeKind.children] using ht)) depth s
    rw [stmt, stmtSites]
    cases asBody with
    | true => exact hstmts depth
    | false =>
      exact (places_mark depth "\x7b").silent ((hstmts (depth + 1)).last (places_mark depth "\x7d"))
  | _ => exact places_note _

end

/-- Every statement writes its sites, by induction on the tree. -/
theorem placed (t : Tree) : Placed t := by
  induction t using Tree.induction with
  | step kind span ih =>
    constructor
    · exact fun inMain asBody depth s => places_stmt inMain ih asBody depth span s
    · intro inMain depth s
      have hstmt := places_stmt inMain ih true (depth + 1) span s
      have helse := (places_mark depth "\x7d else \x7b").silent hstmt
      cases kind with
      | ifStmt cond thenBranch elseBranch =>
        have hthen := (ih thenBranch (by simp [NodeKind.children])).stmt inMain true (depth + 1) s
        have hbranches (t : Tree) (ht : t ∈ elseBranch) : Placed t :=
          ih t (by simp [NodeKind.children, Option.mem_toList.mpr ht])
        have hrest := places_elseChain inMain hbranches depth (stmtSites s thenBranch).2
        rw [elseChain, stmtSites]
        exact places_headed cond "\x7d else if (" depth (hthen.bind hrest)
      | _ => simpa only [elseChain] using helse

/-! ### Definitions and units -/

/-- The texts of the sites stand in the body in order. -/
theorem threaded_bodyText (globals : Scope) (inMain : Bool) (params : List Tree) (body : Tree) :
    Threaded ((functionSites globals params body).map Site.text)
      (bodyText globals inMain params body) := by
  have hparams := CSyntax.emits_declareParams (paramTypes params) globals.enterFunction
    { scope := globals.enterFunction } rfl
  have hbody := (placed body).stmt inMain true 1 _
    { scope := CSyntax.bindParams globals.enterFunction (paramTypes params) } rfl
  obtain ⟨-, lines, hlines, hthreaded⟩ := hbody
  unfold bodyText
  dsimp only
  rw [hparams.1, hlines]
  exact hthreaded

/-- The text of a unit holds the expressions of each of its functions. -/
theorem threaded_render {t body : Tree} {name : String} {isPublic : Bool} {params : List Tree}
    {ret : Option Tree} {span : Span}
    (h : .node (.function name isPublic params ret body) span ∈ t.items) (support : SupportForm) :
    Threaded ((functionSites (declarations t.items) params body).map Site.text)
      (render t support).c := by
  obtain ⟨before, after, htext⟩ := definition_in_render h support
  have hbody := threaded_bodyText (declarations t.items) (name = "main") params body
  rw [htext, definitionText, functionState_lines]
  exact ((((hbody.prepend _).followed _).followed _).prepend before).followed after

end StagedCompiler.Target
