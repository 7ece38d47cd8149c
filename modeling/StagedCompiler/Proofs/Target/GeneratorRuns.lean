import StagedCompiler.Target.Unit

/-!
What the generator's state does in between. A statement is written at the depth
at which it is met, and the depth and the flag are the same behind it, so a
writer that is told both does as well (`Follows`). Such a writer only adds to
the lines before it. Between two items the depth is zero again and the functions
and structs are those of the unit (`Contributes`), so the text of a unit is that
of its parts, each of which is written on its own.
-/

namespace StagedCompiler.Target

/-! ### Writers of single parts -/

section

open Writer

mutual

def stmt (inMain asBody : Bool) (depth : Nat) : Tree → Writer Unit
  | .node (.letStmt name _ type init) _ => letStmt depth name type init
  | .node (.assign target op value) _ => do
    let target ← written target
    let value ← written value
    line depth (target ++ " " ++ op.text ++ " " ++ value ++ ";")
  | .node (.returnStmt none) _ => line depth (if inMain then "return 0;" else "return;")
  | .node (.returnStmt (some value)) _ => do
    line depth ("return " ++ (← written value) ++ ";")
  | .node (.exprStmt e) _ => do line depth ((← written e) ++ ";")
  | .node (.ifStmt cond thenBranch elseBranch) _ => do
    line depth ("if (" ++ (← writtenCondition cond) ++ ") \x7b")
    stmt inMain true (depth + 1) thenBranch
    elseChain inMain depth elseBranch
    line depth "\x7d"
  | .node (.whileStmt cond body) _ => do
    line depth ("while (" ++ (← writtenCondition cond) ++ ") \x7b")
    stmt inMain true (depth + 1) body
    line depth "\x7d"
  | .node (.forStmt var (.node (.range start stop inclusive) _) body) _ => do
    let start ← written start
    let stop ← written stop
    declareVar var .int
    line depth (forHead var start (if inclusive then "<=" else "<") stop)
    stmt inMain true (depth + 1) body
    line depth "\x7d"
  | .node (.forStmt _ iter _) _ => note [.unsupported .forOverNonRange iter.span]
  | .node .breakStmt _ => line depth "break;"
  | .node .continueStmt _ => line depth "continue;"
  | .node (.block body) _ =>
    if asBody then stmts inMain depth body
    else do
      line depth "\x7b"
      stmts inMain (depth + 1) body
      line depth "\x7d"
  | .node kind span => note [.unsupported (.misplaced kind.label .statement) span]

def stmts (inMain : Bool) (depth : Nat) : List Tree → Writer Unit
  | [] => pure ()
  | t :: ts => do
    stmt inMain false depth t
    stmts inMain depth ts

def elseChain (inMain : Bool) (depth : Nat) : Option Tree → Writer Unit
  | none => pure ()
  | some (.node (.ifStmt cond thenBranch elseBranch) _) => do
    line depth ("\x7d else if (" ++ (← writtenCondition cond) ++ ") \x7b")
    stmt inMain true (depth + 1) thenBranch
    elseChain inMain depth elseBranch
  | some t => do
    line depth "\x7d else \x7b"
    stmt inMain true (depth + 1) t

end

end

def declarations (items : List Tree) : Scope :=
  items.foldl declareItem {}

def functionWriter (name : String) (params : List Tree) (ret : Option Tree) (body : Tree) :
    Writer Unit := do
  declareParams (paramTypes params)
  Writer.note (signatureNotes name params ret)
  Writer.line 0 (signature name params ret ++ " \x7b")
  stmt (name = "main") true 1 body
  if name = "main" then Writer.line 1 "return 0;"
  Writer.line 0 "\x7d"
  Writer.line 0 ""

def functionState (s : Scope) (name : String) (params : List Tree) (ret : Option Tree)
    (body : Tree) : WriterState :=
  ((functionWriter name params ret body).run { scope := s.enterFunction }).2

def typedefText (name : String) (fields : List (String × CType)) : String :=
  "typedef struct " ++ name ++ " \x7b\n" ++
    String.join (fields.map fun field => "    " ++ field.2.declare field.1 ++ ";\n") ++
    "\x7d " ++ name ++ ";\n\n"

def definitionText (s : Scope) : Tree → String
  | .node (.function name _ params ret body) _ =>
    String.join (functionState s name params ret body).lines.toList
  | _ => ""

def definitionNotes (s : Scope) : Tree → List Note
  | .node (.function name _ params ret body) _ =>
    (functionState s name params ret body).notes.toList
  | .node (.importPath path) _ => [.skippedImport path]
  | .node (.struct ..) _ => []
  | .node kind span => [.unsupported (.misplaced kind.label .topLevel) span]

/-! ### Statements -/

def WriterState.followedBy (st later : WriterState) : WriterState :=
  ⟨later.scope, st.lines ++ later.lines, st.notes ++ later.notes⟩

/-- The writer adds to what is there, whatever it is, and it declares nothing
but variables. -/
structure Additive {α : Type} (w : Writer α) : Prop where
  run (st : WriterState) :
    w.run st = ((w.run { scope := st.scope }).1, st.followedBy (w.run { scope := st.scope }).2)
  globals (st : WriterState) : (w.run st).2.scope.enterFunction = st.scope.enterFunction

/-- At the depth and with the flag the generator does what the writer does, and
both are the same behind it. -/
structure Follows {α : Type} (inMain : Bool) (depth : Nat) (m : Generator α) (w : Writer α) :
    Prop where
  run (g : GeneratorState) : g.indent = depth → g.inMain = inMain →
    m.run g = (Generator.lift w).run g
  additive : Additive w

section

variable {α β : Type} {inMain : Bool} {depth : Nat}

theorem Additive.bind {w : Writer α} {f : α → Writer β} (hw : Additive w)
    (hf : ∀ a, Additive (f a)) : Additive (w >>= f) := by
  constructor
  · intro st
    have hrun (st : WriterState) : (w >>= f).run st = (f (w.run st).1).run (w.run st).2 := rfl
    rw [hrun, hrun, hw.run, (hf _).run, (hf _).run (w.run { scope := st.scope }).2]
    simp [WriterState.followedBy, Array.append_assoc]
  · intro st
    exact ((hf _).globals _).trans (hw.globals st)

theorem WriterState.followedBy_empty (st : WriterState) :
    st.followedBy { scope := st.scope } = st := by
  simp [followedBy]

theorem additive_pure (a : α) : Additive (pure a) :=
  ⟨fun st => congrArg (Prod.mk a) st.followedBy_empty.symm, fun _ => rfl⟩

theorem additive_note (ns : List Note) : Additive (Writer.note ns) := by
  refine ⟨fun st => congrArg (Prod.mk ()) ?_, fun _ => rfl⟩
  have hnotes : st.notes ++ ns = st.notes ++ ns.toArray := Array.toList_inj.mp (by simp)
  simp [WriterState.followedBy, Writer.note, pure, hnotes]

theorem additive_line (depth : Nat) (text : String) : Additive (Writer.line depth text) := by
  refine ⟨fun st => congrArg (Prod.mk ()) ?_, fun _ => rfl⟩
  simp [WriterState.followedBy, Writer.line, pure]

theorem additive_declareVar (name : String) (t : CType) : Additive (Writer.declareVar name t) := by
  refine ⟨fun st => congrArg (Prod.mk ()) ?_, fun _ => rfl⟩
  simp [WriterState.followedBy, Writer.declareVar, pure]

/-- What follows may read off the scope. -/
theorem additive_get {f : WriterState → Writer β} (hf : ∀ st, Additive (f st))
    (hscope : ∀ st, f st = f { scope := st.scope }) : Additive (get >>= f) := by
  refine ⟨fun st => ?_, fun st => (hf st).globals st⟩
  have hrun (st : WriterState) : (get >>= f).run st = (f st).run st := rfl
  rw [hrun, hrun, (hf st).run, hscope]

theorem additive_written (t : Tree) : Additive (written t) :=
  (additive_note _).bind fun _ => additive_get (fun _ => additive_pure _) fun _ => rfl

theorem additive_writtenCondition (t : Tree) : Additive (writtenCondition t) :=
  (additive_note _).bind fun _ => additive_get (fun _ => additive_pure _) fun _ => rfl

theorem additive_letStmt (depth : Nat) (name : String) (type init : Option Tree) :
    Additive (letStmt depth name type init) := by
  refine additive_get (fun _ => ?_) fun _ => rfl
  apply (additive_note _).bind
  intro _
  cases init with
  | none =>
    apply (additive_line _ _).bind
    exact fun _ => additive_declareVar _ _
  | some e =>
    apply (additive_note _).bind
    intro _
    apply (additive_line _ _).bind
    exact fun _ => additive_declareVar _ _

theorem Follows.bind {m : Generator α} {w : Writer α} {f : α → Generator β} {v : α → Writer β}
    (h : Follows inMain depth m w) (hf : ∀ a, Follows inMain depth (f a) (v a)) :
    Follows inMain depth (m >>= f) (w >>= v) := by
  refine ⟨fun g hindent hmain => ?_, h.additive.bind fun a => (hf a).additive⟩
  have hrun : (m >>= f).run g = (f (m.run g).1).run (m.run g).2 := rfl
  rw [hrun, h.run g hindent hmain]
  exact (hf _).run _ hindent hmain

theorem follows_lift {w : Writer α} (h : Additive w) :
    Follows inMain depth (Generator.lift w) w :=
  ⟨fun _ _ _ => rfl, h⟩

theorem follows_pure (a : α) : Follows inMain depth (pure a) (pure a) :=
  ⟨fun _ _ _ => rfl, additive_pure a⟩

/-- What follows may read off the depth and the flag. -/
theorem follows_get {f : GeneratorState → Generator α} {w : Writer α} (hw : Additive w)
    (h : ∀ g, g.indent = depth → g.inMain = inMain → f g = Generator.lift w) :
    Follows inMain depth (get >>= f) w := by
  refine ⟨fun g hindent hmain => ?_, hw⟩
  have hrun : (get >>= f).run g = (f g).run g := rfl
  rw [hrun, h g hindent hmain]

theorem follows_line (text : String) :
    Follows inMain depth (Generator.line text) (Writer.line depth text) :=
  follows_get (additive_line _ _) fun g hindent _ => by rw [hindent]

/-- What stands one level deeper leaves the depth as it was. -/
theorem Follows.indented {m : Generator Unit} {w : Writer Unit}
    (h : Follows inMain (depth + 1) m w) : Follows inMain depth (Generator.indented m) w := by
  refine ⟨fun g hindent hmain => ?_, h.additive⟩
  have hinner := h.run { g with indent := g.indent + 1 } (congrArg (· + 1) hindent) hmain
  have hrun : (Generator.indented m).run g =
      ((), { (m.run { g with indent := g.indent + 1 }).2 with
        indent := (m.run { g with indent := g.indent + 1 }).2.indent - 1 }) := rfl
  rw [hrun, hinner]
  rfl

/-- The generator follows the writers of a tree, as a statement and behind the
first branch of a conditional. -/
structure Followed (t : Tree) : Prop where
  stmt (inMain asBody : Bool) (depth : Nat) :
    Follows inMain depth (emitStmt asBody t) (Target.stmt inMain asBody depth t)
  elseChain (inMain : Bool) (depth : Nat) :
    Follows inMain depth (emitElse (some t)) (Target.elseChain inMain depth (some t))

theorem follows_written (t : Tree) :
    Follows inMain depth (Generator.lift (written t)) (written t) :=
  follows_lift (additive_written t)

theorem follows_writtenCondition (t : Tree) :
    Follows inMain depth (Generator.lift (writtenCondition t)) (writtenCondition t) :=
  follows_lift (additive_writtenCondition t)

theorem follows_stmts {ts : List Tree} (h : ∀ t ∈ ts, Followed t) :
    Follows inMain depth (emitStmts ts) (stmts inMain depth ts) := by
  induction ts with
  | nil => exact follows_pure ()
  | cons t ts ih =>
    rw [emitStmts, stmts]
    apply ((h t List.mem_cons_self).stmt inMain false depth).bind
    exact fun _ => ih fun u hu => h u (List.mem_cons_of_mem _ hu)

theorem follows_elseChain {branch : Option Tree} (h : ∀ t ∈ branch, Followed t) :
    Follows inMain depth (emitElse branch) (elseChain inMain depth branch) := by
  cases branch with
  | none => exact follows_pure ()
  | some t => exact (h t rfl).elseChain inMain depth

theorem follows_forStmt {var : String} {iter body : Tree} {span : Span} {asBody : Bool}
    (hbody : Followed body) :
    Follows inMain depth (emitStmt asBody (.node (.forStmt var iter body) span))
      (stmt inMain asBody depth (.node (.forStmt var iter body) span)) := by
  obtain ⟨kind, place⟩ := iter
  cases kind with
  | range start stop inclusive =>
    rw [emitStmt, stmt]
    apply (follows_written start).bind
    intro startText
    apply (follows_written stop).bind
    intro stopText
    apply (follows_lift (additive_declareVar _ _)).bind
    intro _
    apply (follows_line _).bind
    intro _
    apply (hbody.stmt inMain true (depth + 1)).indented.bind
    exact fun _ => follows_line _
  | _ =>
    simp only [emitStmt, stmt]
    exact follows_lift (additive_note _)

/-- The generator of a statement follows its writer if those of its parts do. -/
theorem follows_stmt {kind : NodeKind String Tree} (span : Span)
    (ih : ∀ t ∈ kind.children, Followed t) (asBody : Bool) :
    Follows inMain depth (emitStmt asBody (.node kind span))
      (stmt inMain asBody depth (.node kind span)) := by
  cases kind with
  | letStmt name mutable type init =>
    rw [emitStmt, stmt]
    exact follows_get (additive_letStmt ..) fun g hindent _ => by rw [hindent]
  | assign target op value =>
    rw [emitStmt, stmt]
    apply (follows_written target).bind
    intro targetText
    apply (follows_written value).bind
    exact fun _ => follows_line _
  | returnStmt value =>
    cases value with
    | none =>
      rw [emitStmt, stmt]
      refine ⟨fun g hindent hmain => ?_, additive_line _ _⟩
      rw [← (follows_line _).run g hindent hmain, ← hmain]
      rfl
    | some value =>
      rw [emitStmt, stmt]
      apply (follows_written value).bind
      exact fun _ => follows_line _
  | exprStmt e =>
    rw [emitStmt, stmt]
    apply (follows_written e).bind
    exact fun _ => follows_line _
  | ifStmt cond thenBranch elseBranch =>
    rw [emitStmt, stmt]
    apply (follows_writtenCondition cond).bind
    intro text
    apply (follows_line _).bind
    intro _
    apply ((ih thenBranch (by simp [NodeKind.children])).stmt inMain true (depth + 1)).indented.bind
    intro _
    refine (follows_elseChain fun t ht => ih t ?_).bind fun _ => follows_line _
    simp [NodeKind.children, Option.mem_toList.mpr ht]
  | whileStmt cond body =>
    rw [emitStmt, stmt]
    apply (follows_writtenCondition cond).bind
    intro text
    apply (follows_line _).bind
    intro _
    apply ((ih body (by simp [NodeKind.children])).stmt inMain true (depth + 1)).indented.bind
    exact fun _ => follows_line _
  | forStmt var iter body => exact follows_forStmt (ih body (by simp [NodeKind.children]))
  | breakStmt | continueStmt =>
    rw [emitStmt, stmt]
    exact follows_line _
  | block body =>
    rw [emitStmt, stmt]
    split
    · exact follows_stmts ih
    · apply (follows_line _).bind
      intro _
      apply (follows_stmts ih).indented.bind
      exact fun _ => follows_line _
  | _ =>
    simp only [emitStmt, stmt]
    exact follows_lift (additive_note _)

/-- By induction on the tree, every generator follows its writer. -/
theorem followed (t : Tree) : Followed t := by
  induction t using Tree.induction with
  | step kind span ih =>
    refine ⟨fun inMain asBody depth => follows_stmt span ih asBody, fun inMain depth => ?_⟩
    -- Only a conditional goes on on the line of the closing brace.
    cases kind with
    | ifStmt cond thenBranch elseBranch =>
      rw [emitElse, elseChain]
      apply (follows_writtenCondition cond).bind
      intro text
      apply (follows_line _).bind
      intro _
      have hthen := (ih thenBranch (by simp [NodeKind.children])).stmt inMain true (depth + 1)
      apply hthen.indented.bind
      intro _
      refine follows_elseChain fun t ht => ih t ?_
      simp [NodeKind.children, Option.mem_toList.mpr ht]
    | _ =>
      simp only [emitElse, elseChain]
      exact (follows_line _).bind fun _ => (follows_stmt span ih true).indented

end

/-! ### Items -/

theorem additive_declareParams (params : List (String × Tree)) :
    Additive (declareParams params) := by
  induction params with
  | nil => exact additive_pure ()
  | cons param params ih =>
    apply (additive_note _).bind
    intro _
    apply (additive_declareVar _ _).bind
    exact fun _ => ih

/-- At depth zero a blank line is as it is. -/
theorem follows_newline : Follows inMain 0 (Generator.write "\n") (Writer.line 0 "") := by
  refine ⟨fun g _ _ => ?_, additive_line _ _⟩
  have hline : String.ofList (List.replicate (4 * 0) ' ') ++ "" ++ "\n" = "\n" := rfl
  rw [Writer.line, hline]
  rfl

theorem follows_functionWriter (name : String) (params : List Tree) (ret : Option Tree)
    (body : Tree) :
    Follows (name = "main") 0 (emitDefinition name params ret body)
      (functionWriter name params ret body) := by
  have hend : Follows (name = "main") 0 (do Generator.line "\x7d"; Generator.write "\n")
      (do Writer.line 0 "\x7d"; Writer.line 0 "") :=
    (follows_line _).bind fun _ => follows_newline
  apply (follows_lift (additive_declareParams _)).bind
  intro _
  apply (follows_lift (additive_note _)).bind
  intro _
  apply (follows_line _).bind
  intro _
  apply ((followed body).stmt (name = "main") true 1).indented.bind
  intro _
  split
  · exact (follows_line _).indented.bind fun _ => hend
  · exact hend

/-- Wherever a function is met, it is written from what the unit declares. -/
theorem run_emitFunction {g : GeneratorState} (hindent : g.indent = 0) (name : String)
    (params : List Tree) (ret : Option Tree) (body : Tree) :
    ((emitFunction name params ret body).run g).2 =
      { g with
        toWriterState := g.followedBy (functionState g.scope name params ret body)
        inMain := name = "main" } := by
  have hfollows := follows_functionWriter name params ret body
  have hrun := hfollows.run { g with scope := g.scope.enterFunction, inMain := name = "main" }
    hindent rfl
  have hadded := hfollows.additive.run { g.toWriterState with scope := g.scope.enterFunction }
  calc ((emitFunction name params ret body).run g).2
    _ = ((emitDefinition name params ret body).run
          { g with scope := g.scope.enterFunction, inMain := name = "main" }).2 := rfl
    _ = { g with
          toWriterState := ((functionWriter name params ret body).run
            { g.toWriterState with scope := g.scope.enterFunction }).2
          inMain := name = "main" } := by rw [hrun]; rfl
    _ = _ := by rw [hadded]; rfl

/-- From a depth and from the functions and structs of `s` the generator comes
back to them, whatever else its state was, and adds the text and the notes. -/
def Contributes (s : Scope) (depth : Nat) (m : Generator Unit) (text : String)
    (notes : List Note) : Prop :=
  ∀ g : GeneratorState, g.indent = depth → g.scope.enterFunction = s.enterFunction →
    (m.run g).2.indent = depth ∧ (m.run g).2.scope.enterFunction = s.enterFunction ∧
      String.join (m.run g).2.lines.toList = String.join g.lines.toList ++ text ∧
      (m.run g).2.notes.toList = g.notes.toList ++ notes

section

variable {s : Scope} {depth : Nat} {m m' : Generator Unit} {text text' : String}
  {notes notes' : List Note}

theorem Contributes.bind (h : Contributes s depth m text notes)
    (h' : Contributes s depth m' text' notes') :
    Contributes s depth (m >>= fun _ => m') (text ++ text') (notes ++ notes') := by
  intro g hindent hglobals
  obtain ⟨hindent, hglobals, htext, hnotes⟩ := h g hindent hglobals
  obtain ⟨hindent', hglobals', htext', hnotes'⟩ := h' _ hindent hglobals
  refine ⟨hindent', hglobals', htext'.trans ?_, hnotes'.trans ?_⟩
  · rw [htext, String.append_assoc]
  · rw [hnotes, List.append_assoc]

theorem contributes_pure : Contributes s depth (pure ()) "" [] :=
  fun _ hindent hglobals =>
    ⟨hindent, hglobals, String.append_empty.symm, (List.append_nil _).symm⟩

theorem contributes_forM {α : Type} {f : α → Generator Unit} {text : α → String}
    {notes : α → List Note} (items : List α)
    (h : ∀ item, Contributes s depth (f item) (text item) (notes item)) :
    Contributes s depth (items.forM f) (String.join (items.map text)) (items.flatMap notes) := by
  induction items with
  | nil => exact contributes_pure
  | cons item items ih =>
    rw [List.map_cons, String.join_cons, List.flatMap_cons]
    exact (h item).bind ih

/-- What writes without a note, for each of a list. -/
theorem Contributes.forM_silent {α : Type} {f : α → Generator Unit} {text : α → String}
    (h : ∀ item, Contributes s depth (f item) (text item) []) (items : List α) :
    Contributes s depth (items.forM f) (String.join (items.map text)) [] := by
  have hnotes : items.flatMap (fun _ => ([] : List Note)) = [] :=
    List.flatMap_eq_nil_iff.mpr (by simp)
  rw [← hnotes]
  exact contributes_forM items h

theorem contributes_note (ns : List Note) :
    Contributes s depth (Generator.lift (Writer.note ns)) "" ns :=
  fun _ hindent hglobals => ⟨hindent, hglobals, String.append_empty.symm, Array.toList_appendList⟩

theorem contributes_write (text : String) : Contributes s depth (Generator.write text) text [] := by
  refine fun g hindent hglobals => ⟨hindent, hglobals, ?_, (List.append_nil _).symm⟩
  have hlines : ((Generator.write text).run g).2.lines = g.lines.push text := rfl
  rw [hlines, Array.toList_push, String.join_append, String.join_cons, String.join_nil,
    String.append_empty]

theorem contributes_line (text : String) :
    Contributes s depth (Generator.line text)
      (String.ofList (List.replicate (4 * depth) ' ') ++ text ++ "\n") [] := by
  intro g hindent hglobals
  have hrun : (Generator.line text).run g = (Generator.write
      (String.ofList (List.replicate (4 * g.indent) ' ') ++ text ++ "\n")).run g := rfl
  rw [hrun, hindent]
  exact contributes_write _ g hindent hglobals

theorem Contributes.indented (h : Contributes s (depth + 1) m text notes) :
    Contributes s depth (Generator.indented m) text notes := by
  intro g hindent hglobals
  obtain ⟨hdeeper, hrest⟩ :=
    h { g with indent := g.indent + 1 } (congrArg (· + 1) hindent) hglobals
  exact ⟨Nat.sub_eq_of_eq_add hdeeper, hrest⟩

/-- Structs are what they are in `s`, whatever variables there are. -/
theorem fields?_of_enterFunction {s' : Scope} (h : s'.enterFunction = s.enterFunction)
    (name : String) : s'.fields? name = s.fields? name := by
  change s'.enterFunction.fields? name = s.enterFunction.fields? name
  rw [h]

theorem contributes_fields (fields : List (String × CType)) :
    Contributes s 1 (fields.forM fun field => Generator.line (field.2.declare field.1 ++ ";"))
      (String.join (fields.map fun field => "    " ++ field.2.declare field.1 ++ ";\n")) [] := by
  have hline (field : String × CType) : "    " ++ field.2.declare field.1 ++ ";\n" =
      String.ofList (List.replicate (4 * 1) ' ') ++ (field.2.declare field.1 ++ ";") ++ "\n" := by
    have hend : ";\n" = ";" ++ "\n" := rfl
    rw [hend, ← String.append_assoc, ← String.append_assoc]
    rfl
  simp only [hline]
  exact .forM_silent (fun field => contributes_line _) fields

theorem contributes_top (text : String) :
    Contributes s 0 (Generator.line text) (text ++ "\n") [] := by
  have hline : String.ofList (List.replicate (4 * 0) ' ') ++ text ++ "\n" = text ++ "\n" := by
    rw [Nat.mul_zero, List.replicate_zero, String.ofList_nil, String.empty_append]
  rw [← hline]
  exact contributes_line text

theorem typedefText_eq (name : String) (fields : List (String × CType)) :
    typedefText name fields = "typedef struct " ++ name ++ " \x7b" ++ "\n" ++
      (String.join (fields.map fun field => "    " ++ field.2.declare field.1 ++ ";\n") ++
        ("\x7d " ++ name ++ ";" ++ "\n" ++ "\n")) := by
  have hopen : " \x7b\n" = " \x7b" ++ "\n" := rfl
  have hclose : ";\n\n" = ";" ++ ("\n" ++ "\n") := rfl
  unfold typedefText
  rw [hopen, hclose]
  simp only [String.append_assoc]

theorem contributes_emitStruct (name : String) :
    Contributes s 0 (emitStruct name) (typedefText name ((s.fields? name).getD [])) [] := by
  intro g hindent hglobals
  rw [typedefText_eq, ← fields?_of_enterFunction hglobals]
  -- The first line changes nothing that the struct is looked up in.
  exact (contributes_top ("typedef struct " ++ name ++ " \x7b")).bind
    ((contributes_fields ((g.scope.fields? name).getD [])).indented.bind
      ((contributes_top ("\x7d " ++ name ++ ";")).bind (contributes_write "\n"))) g hindent hglobals

def typedefOf (s : Scope) : Tree → String
  | .node (.struct name _) _ => typedefText name ((s.fields? name).getD [])
  | _ => ""

theorem contributes_emitTypedef (t : Tree) :
    Contributes s 0 (emitTypedef t) (typedefOf s t) [] := by
  obtain ⟨kind, span⟩ := t
  cases kind with
  | struct name fields => exact contributes_emitStruct name
  | _ => exact contributes_pure

theorem contributes_notes (items : List Tree) :
    Contributes s depth (items.forM fun item => Generator.lift (Writer.note (prototypeNotes item)))
      "" (items.flatMap prototypeNotes) := by
  have htext : String.join (items.map fun _ => "") = "" := by
    induction items with
    | nil => rfl
    | cons _ items ih => rw [List.map_cons, String.join_cons, ih, String.empty_append]
  rw [← htext]
  exact contributes_forM items fun item => contributes_note _

theorem contributes_emitPrototypes (items : List Tree) :
    Contributes s 0 (emitPrototypes items)
      (if (prototypes items).isEmpty then "" else Support.lines (prototypes items) ++ "\n")
      (items.flatMap prototypeNotes) := by
  have hlines : Contributes s 0
      ((prototypes items).forM fun proto => Generator.write (proto ++ "\n"))
      (Support.lines (prototypes items)) [] :=
    Contributes.forM_silent (fun proto => contributes_write _) _
  have hrest : Contributes s 0
      (if (prototypes items).isEmpty then pure ()
        else do
          (prototypes items).forM fun proto => Generator.write (proto ++ "\n")
          Generator.write "\n")
      (if (prototypes items).isEmpty then "" else Support.lines (prototypes items) ++ "\n") [] := by
    split
    · exact contributes_pure
    · exact hlines.bind (contributes_write "\n")
  have hall := (contributes_notes items).bind hrest
  rw [String.empty_append, List.append_nil] at hall
  exact hall

/-- An item adds its definition, whatever was written before it. -/
theorem contributes_emitItem (t : Tree) :
    Contributes s 0 (emitItem t) (definitionText s t) (definitionNotes s t) := by
  obtain ⟨kind, span⟩ := t
  cases kind with
  | function name isPublic params ret body =>
    intro g hindent hglobals
    have hsame : functionState g.scope name params ret body =
        functionState s name params ret body := by
      unfold functionState
      rw [hglobals]
    have hkept := (follows_functionWriter name params ret body).additive.globals
      { scope := s.enterFunction }
    have hrun := run_emitFunction hindent name params ret body
    rw [hsame] at hrun
    rw [emitItem, hrun]
    refine ⟨hindent, hkept, ?_, Array.toList_append⟩
    rw [definitionText, ← String.join_append, ← Array.toList_append]
    rfl
  | struct name fields => exact contributes_pure
  | _ => exact contributes_note _

/-- Collecting declares the items and notes their faults; it writes nothing. -/
theorem run_collect (items : List Tree) (g : GeneratorState) :
    ((items.forM collectItem).run g).2.indent = g.indent ∧
      ((items.forM collectItem).run g).2.scope = items.foldl declareItem g.scope ∧
      ((items.forM collectItem).run g).2.lines = g.lines ∧
      ((items.forM collectItem).run g).2.notes.toList =
        g.notes.toList ++ items.flatMap declarationNotes := by
  induction items generalizing g with
  | nil => exact ⟨rfl, rfl, rfl, (List.append_nil _).symm⟩
  | cons item items ih =>
    obtain ⟨hindent, hscope, hlines, hnotes⟩ := ih ((collectItem item).run g).2
    refine ⟨hindent, hscope, hlines, hnotes.trans ?_⟩
    have hfirst : ((collectItem item).run g).2.notes.toList =
        g.notes.toList ++ declarationNotes item := Array.toList_appendList
    rw [hfirst, List.flatMap_cons, List.append_assoc]

/-- The text and the notes of a unit are put together of those of its parts. -/
theorem render_parts (program : Tree) (support : SupportForm) :
    (render program support).c = Support.headers ++ "\n" ++ (supportText support ++ "\n" ++
        (String.join (program.items.map (typedefOf (declarations program.items))) ++
          ((if (prototypes program.items).isEmpty then ""
            else Support.lines (prototypes program.items) ++ "\n") ++
            String.join (program.items.map (definitionText (declarations program.items)))))) ∧
      (render program support).notes = program.items.flatMap declarationNotes ++
        (program.items.flatMap prototypeNotes ++
          program.items.flatMap (definitionNotes (declarations program.items))) := by
  have hunit : Contributes (declarations program.items) 0 _ _ _ :=
    (contributes_write (Support.headers ++ "\n")).bind
      ((contributes_write (supportText support ++ "\n")).bind
        ((Contributes.forM_silent contributes_emitTypedef program.items).bind
          ((contributes_emitPrototypes program.items).bind
            (contributes_forM program.items contributes_emitItem))))
  obtain ⟨hindent, hscope, hlines, hcollected⟩ := run_collect program.items {}
  obtain ⟨-, -, htext, hnotes⟩ := hunit _ hindent (congrArg Scope.enterFunction hscope)
  rw [hlines] at htext
  rw [hcollected] at hnotes
  exact ⟨htext.trans String.empty_append, hnotes⟩

end

end StagedCompiler.Target
