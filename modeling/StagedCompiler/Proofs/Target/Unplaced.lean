import StagedCompiler.Proofs.Target.GeneratorRuns

/-!
What the text of C depends on. Where a tree stood in its source is of no
matter, and of a scope only what can be looked up in it is. So trees that are
equal but for their places are written alike, from scopes that know the same,
whatever else was noted on the way.
-/

namespace StagedCompiler

namespace Tree

mutual

def unplaced : Tree → Tree
  | node kind _ => node (unplacedKind kind) {}

def unplacedKind : NodeKind String Tree → NodeKind String Tree
  | .program items => .program (unplacedList items)
  | .function name isPublic params ret body =>
      .function name isPublic (unplacedList params) (unplacedOption ret) body.unplaced
  | .struct name fields => .struct name (unplacedList fields)
  | .field name type => .field name type.unplaced
  | .param name mutable type => .param name mutable type.unplaced
  | .importPath path => .importPath path
  | .block stmts => .block (unplacedList stmts)
  | .letStmt name mutable type init =>
      .letStmt name mutable (unplacedOption type) (unplacedOption init)
  | .assign target op value => .assign target.unplaced op value.unplaced
  | .returnStmt value => .returnStmt (unplacedOption value)
  | .exprStmt expr => .exprStmt expr.unplaced
  | .ifStmt cond thenBranch elseBranch =>
      .ifStmt cond.unplaced thenBranch.unplaced (unplacedOption elseBranch)
  | .whileStmt cond body => .whileStmt cond.unplaced body.unplaced
  | .forStmt var iter body => .forStmt var iter.unplaced body.unplaced
  | .breakStmt => .breakStmt
  | .continueStmt => .continueStmt
  | .ident name => .ident name
  | .int value => .int value
  | .float value => .float value
  | .str text => .str text
  | .char value => .char value
  | .bool value => .bool value
  | .binary op lhs rhs => .binary op lhs.unplaced rhs.unplaced
  | .unary op operand => .unary op operand.unplaced
  | .call callee args => .call callee.unplaced (unplacedList args)
  | .index base place => .index base.unplaced place.unplaced
  | .fieldAccess base name => .fieldAccess base.unplaced name
  | .arrayLit elems => .arrayLit (unplacedList elems)
  | .structLit name fields => .structLit name (unplacedFields fields)
  | .range start stop inclusive => .range start.unplaced stop.unplaced inclusive
  | .primType type => .primType type
  | .namedType name => .namedType name
  | .arrayType elem len => .arrayType elem.unplaced len
  | .refType mutable inner => .refType mutable inner.unplaced

def unplacedList : List Tree → List Tree
  | [] => []
  | t :: ts => t.unplaced :: unplacedList ts

def unplacedOption : Option Tree → Option Tree
  | none => none
  | some t => some t.unplaced

def unplacedFields : List (FieldInit String Tree) → List (FieldInit String Tree)
  | [] => []
  | ⟨name, value, _⟩ :: fields => ⟨name, value.unplaced, {}⟩ :: unplacedFields fields

end

@[simp]
theorem unplacedList_eq (ts : List Tree) : unplacedList ts = ts.map unplaced := by
  induction ts with
  | nil => rfl
  | cons t ts ih => simp [unplacedList, ih]

@[simp]
theorem unplacedOption_eq (t : Option Tree) : unplacedOption t = t.map unplaced := by
  cases t <;> rfl

@[simp]
theorem unplacedFields_eq (fields : List (FieldInit String Tree)) :
    unplacedFields fields = fields.map fun field => ⟨field.name, field.value.unplaced, {}⟩ := by
  induction fields with
  | nil => rfl
  | cons field fields ih => cases field; simp [unplacedFields, ih]

end Tree

namespace Target

open StagedCompiler.Tree

structure Scope.Same (s s' : Scope) : Prop where
  var (name : String) : s.var? name = s'.var? name
  fn (name : String) : s.fn? name = s'.fn? name
  fields (name : String) : s.fields? name = s'.fields? name

namespace Scope

variable {s s' : Scope}

theorem Same.refl (s : Scope) : s.Same s :=
  ⟨fun _ => rfl, fun _ => rfl, fun _ => rfl⟩

theorem Same.symm (h : s.Same s') : s'.Same s :=
  ⟨fun name => (h.var name).symm, fun name => (h.fn name).symm, fun name => (h.fields name).symm⟩

theorem Same.trans {s'' : Scope} (h : s.Same s') (h' : s'.Same s'') : s.Same s'' :=
  ⟨fun name => (h.var name).trans (h'.var name), fun name => (h.fn name).trans (h'.fn name),
    fun name => (h.fields name).trans (h'.fields name)⟩

theorem Same.declareVar (h : s.Same s') (name : String) (t : CType) :
    (s.declareVar name t).Same (s'.declareVar name t) where
  var other := by
    have hother := h.var other
    simp only [var?, Scope.declareVar, Std.TreeMap.getElem?_insert] at hother ⊢
    rw [hother]
  fn := h.fn
  fields := h.fields

theorem Same.declareFn (h : s.Same s') (name : String) (sig : Signature) :
    (s.declareFn name sig).Same (s'.declareFn name sig) where
  var := h.var
  fn other := by
    have hother := h.fn other
    simp only [fn?, Scope.declareFn, Std.TreeMap.getElem?_insert] at hother ⊢
    rw [hother]
  fields := h.fields

theorem Same.declareStruct (h : s.Same s') (name : String) (fields : List (String × CType)) :
    (s.declareStruct name fields).Same (s'.declareStruct name fields) where
  var := h.var
  fn := h.fn
  fields other := by
    have hother := h.fields other
    simp only [fields?, Scope.declareStruct, Std.TreeMap.getElem?_insert] at hother ⊢
    rw [hother]

/-- Inside a function only functions and structs of before are known. -/
theorem same_enterFunction (hfn : ∀ name, s.fn? name = s'.fn? name)
    (hfields : ∀ name, s.fields? name = s'.fields? name) :
    s.enterFunction.Same s'.enterFunction where
  var _ := rfl
  fn := hfn
  fields := hfields

end Scope

/-! ### Types -/

theorem ofTree?_unplaced (t : Tree) : CType.ofTree? t.unplaced = CType.ofTree? t := by
  induction t using Tree.induction with
  | step kind span ih =>
    cases kind with
    | arrayType elem len =>
      have helem := ih elem (by simp [NodeKind.children])
      simp only [unplaced, unplacedKind, CType.ofTree?, helem]
    | refType mutable inner =>
      have hinner := ih inner (by simp [NodeKind.children])
      simp only [unplaced, unplacedKind, CType.ofTree?, hinner]
    | _ => rfl

@[simp]
theorem lower_unplaced (t : Tree) : lower t.unplaced = lower t := by
  rw [lower, lower, ofTree?_unplaced]

/-! ### Expressions -/

section

variable {s s' : Scope}

/-- Places play no part in the type of an expression. -/
theorem infer_unplaced (h : s.Same s') (t : Tree) : infer s t = infer s' t.unplaced := by
  induction t using Tree.induction with
  | step kind span ih =>
    cases kind with
    | ident name => exact h.var name
    | binary op lhs rhs =>
      have hl := ih lhs (by simp [NodeKind.children])
      have hr := ih rhs (by simp [NodeKind.children])
      simp only [unplaced, unplacedKind, infer, hl, hr]
    | unary op operand =>
      have ho := ih operand (by simp [NodeKind.children])
      cases op <;> simp only [unplaced, unplacedKind, infer, ho]
    | call callee args =>
      obtain ⟨kind, place⟩ := callee
      cases kind with
      | ident name => simp only [unplaced, unplacedKind, infer, h.fn]
      | _ => simp only [unplaced, unplacedKind, infer]
    | index base place =>
      have hb := ih base (by simp [NodeKind.children])
      simp only [unplaced, unplacedKind, infer, hb]
    | fieldAccess base field =>
      have hb := ih base (by simp [NodeKind.children])
      simp only [unplaced, unplacedKind, infer, hb, Scope.fieldType?, h.fields]
    | arrayLit elems =>
      simp only [unplaced, unplacedKind, infer, unplacedList_eq, List.length_map]
      cases elems with
      | nil => rfl
      | cons first rest =>
        have hf := ih first (by simp [NodeKind.children])
        simp only [List.map_cons, inferFirst, hf]
    | _ => rfl

theorem inferFirst_unplaced (h : s.Same s') (ts : List Tree) :
    inferFirst s ts = inferFirst s' (ts.map unplaced) := by
  cases ts with
  | nil => rfl
  | cons t ts => simp only [List.map_cons, inferFirst, infer_unplaced h]

theorem isThroughPtr_unplaced (h : s.Same s') (t : Tree) :
    isThroughPtr s t = isThroughPtr s' t.unplaced := by
  obtain ⟨kind, span⟩ := t
  cases kind with
  | ident name => simp only [unplaced, unplacedKind, isThroughPtr, h.var]
  | _ => rfl

end

theorem map_unplaced_congr {s s' : Scope} {bare : Bool} {ts : List Tree}
    (h : ∀ t ∈ ts, expr s bare t = expr s' bare t.unplaced) :
    ts.map (expr s bare) = (ts.map unplaced).map (expr s' bare) := by
  rw [List.map_map]
  exact List.map_congr_left h

theorem calleeText_unplaced {s s' : Scope} {t : Tree}
    (h : expr s false t = expr s' false t.unplaced) :
    calleeText s t = calleeText s' t.unplaced := by
  obtain ⟨kind, span⟩ := t
  cases kind with
  | ident name => rfl
  | _ => exact h

/-- An expression is written without regard to places. -/
theorem expr_unplaced {s s' : Scope} (h : s.Same s') (t : Tree) (bare : Bool) :
    expr s bare t = expr s' bare t.unplaced := by
  induction t using Tree.induction generalizing bare with
  | step kind span ih =>
    cases kind with
    | binary op lhs rhs =>
      have hl := ih lhs (by simp [NodeKind.children])
      have hr := ih rhs (by simp [NodeKind.children])
      simp only [unplaced, unplacedKind, expr, hl, hr]
    | unary op operand =>
      have ho := ih operand (by simp [NodeKind.children])
      simp only [unplaced, unplacedKind, expr, ho]
    | call callee args =>
      have hargs : args.map (expr s false) = (args.map unplaced).map (expr s' false) :=
        map_unplaced_congr fun t ht => ih t (List.mem_cons_of_mem _ ht) false
      have hcallee := calleeText_unplaced (ih callee List.mem_cons_self false)
      simp only [unplaced, unplacedKind, unplacedList_eq, expr_call, hargs, hcallee]
    | index base place =>
      have hb := ih base (by simp [NodeKind.children])
      have hp := ih place (by simp [NodeKind.children])
      simp only [unplaced, unplacedKind, expr, hb, hp]
    | fieldAccess base field =>
      have hb := ih base (by simp [NodeKind.children])
      simp only [unplaced, unplacedKind, expr, hb, isThroughPtr_unplaced h]
    | arrayLit elems =>
      have helems : elems.map (expr s true) = (elems.map unplaced).map (expr s' true) :=
        map_unplaced_congr fun t ht => ih t ht true
      simp only [unplaced, unplacedKind, expr, exprs_eq, unplacedList_eq, helems,
        inferFirst_unplaced h]
    | structLit name fields =>
      have hfields :
          fields.map (fun field => "." ++ field.name ++ " = " ++ expr s true field.value) =
          (fields.map fun field => FieldInit.mk field.name field.value.unplaced {}).map
            fun field => "." ++ field.name ++ " = " ++ expr s' true field.value := by
        rw [List.map_map]
        apply List.map_congr_left
        intro field hfield
        have hvalue := ih field.value (List.mem_map_of_mem hfield) true
        simp only [Function.comp_apply, hvalue]
      simp only [unplaced, unplacedKind, expr, fieldExprs_eq, unplacedFields_eq, hfields,
        List.isEmpty_map]
    | _ => rfl

theorem condition_unplaced {s s' : Scope} (h : s.Same s') (t : Tree) :
    condition s t = condition s' t.unplaced := by
  obtain ⟨kind, span⟩ := t
  cases kind with
  | binary op lhs rhs => simp only [unplaced, unplacedKind, condition, expr_unplaced h]
  | _ => exact expr_unplaced h _ false

/-! ### Statements -/

/-- Two writers that give the same and write the same lines, from scopes that
know the same. What they note may differ. -/
def Alike {α : Type} (w w' : Writer α) : Prop :=
  ∀ st st', st.scope.Same st'.scope → st.lines = st'.lines →
    (w.run st).1 = (w'.run st').1 ∧ (w.run st).2.scope.Same (w'.run st').2.scope ∧
      (w.run st).2.lines = (w'.run st').2.lines

section

variable {α β : Type}

theorem Alike.bind {w w' : Writer α} {f f' : α → Writer β} (h : Alike w w')
    (hf : ∀ a, Alike (f a) (f' a)) : Alike (w >>= f) (w' >>= f') := by
  intro st st' hscope hlines
  obtain ⟨hvalue, hscope, hlines⟩ := h st st' hscope hlines
  have hnext := hf (w.run st).1 (w.run st).2 (w'.run st').2 hscope hlines
  rw [hvalue] at hnext
  have hrun : (w >>= f).run st = (f (w'.run st').1).run (w.run st).2 := by
    rw [← hvalue]
    rfl
  rw [hrun]
  exact hnext

theorem alike_pure (a : α) : Alike (pure a) (pure a) :=
  fun _ _ hscope hlines => ⟨rfl, hscope, hlines⟩

theorem alike_note (ns ns' : List Note) : Alike (Writer.note ns) (Writer.note ns') :=
  fun _ _ hscope hlines => ⟨rfl, hscope, hlines⟩

theorem alike_line (depth : Nat) (text : String) :
    Alike (Writer.line depth text) (Writer.line depth text) := by
  intro st st' hscope hlines
  refine ⟨rfl, hscope, ?_⟩
  change st.lines.push _ = st'.lines.push _
  rw [hlines]

theorem alike_declareVar (name : String) (t : CType) :
    Alike (Writer.declareVar name t) (Writer.declareVar name t) :=
  fun _ _ hscope hlines => ⟨rfl, hscope.declareVar name t, hlines⟩

/-- What follows may read off the scope. -/
theorem alike_get {f f' : WriterState → Writer β}
    (h : ∀ st st', st.scope.Same st'.scope → Alike (f st) (f' st')) :
    Alike (get >>= f) (get >>= f') :=
  fun st st' hscope hlines => h st st' hscope st st' hscope hlines

end

theorem written_alike (t : Tree) : Alike (written t) (written t.unplaced) := by
  apply (alike_note _ _).bind
  intro _
  apply alike_get
  intro st st' hscope
  rw [expr_unplaced hscope t false]
  exact alike_pure _

theorem writtenCondition_alike (t : Tree) :
    Alike (writtenCondition t) (writtenCondition t.unplaced) := by
  apply (alike_note _ _).bind
  intro _
  apply alike_get
  intro st st' hscope
  rw [condition_unplaced hscope t]
  exact alike_pure _

theorem letType_unplaced {s s' : Scope} (h : s.Same s') (type init : Option Tree) :
    letType s type init = letType s' (type.map unplaced) (init.map unplaced) := by
  cases type with
  | some t => exact (lower_unplaced t).symm
  | none =>
    cases init with
    | some e => simp only [Option.map_none, Option.map_some, letType, infer_unplaced h]
    | none => rfl

theorem letStmt_alike (depth : Nat) (name : String) (type init : Option Tree) :
    Alike (letStmt depth name type init)
      (letStmt depth name (type.map unplaced) (init.map unplaced)) := by
  unfold letStmt
  apply alike_get
  intro st st' hscope
  dsimp only
  rw [letType_unplaced hscope]
  apply (alike_note _ _).bind
  intro _
  cases init with
  | none =>
    apply (alike_line _ _).bind
    exact fun _ => alike_declareVar _ _
  | some e =>
    simp only [Option.map_some, expr_unplaced hscope]
    apply (alike_note _ _).bind
    intro _
    apply (alike_line _ _).bind
    exact fun _ => alike_declareVar _ _

theorem stmts_alike {ts : List Tree} {inMain : Bool} {depth : Nat}
    (h : ∀ t ∈ ts, Alike (stmt inMain false depth t) (stmt inMain false depth t.unplaced)) :
    Alike (stmts inMain depth ts) (stmts inMain depth (ts.map unplaced)) := by
  induction ts with
  | nil => exact alike_pure _
  | cons t ts ih =>
    rw [List.map_cons, stmts, stmts]
    apply (h t List.mem_cons_self).bind
    intro _
    exact ih fun u hu => h u (List.mem_cons_of_mem _ hu)

/-- A tree is written the same without places, as a statement and behind the
first branch of a conditional. -/
structure WrittenAlike (t : Tree) : Prop where
  stmt (inMain asBody : Bool) (depth : Nat) :
    Alike (Target.stmt inMain asBody depth t) (Target.stmt inMain asBody depth t.unplaced)
  elseChain (inMain : Bool) (depth : Nat) :
    Alike (Target.elseChain inMain depth (some t)) (Target.elseChain inMain depth (some t.unplaced))

theorem forStmt_alike {var : String} {iter body : Tree} {span : Span}
    (hbody : WrittenAlike body) (inMain asBody : Bool) (depth : Nat) :
    Alike (stmt inMain asBody depth (.node (.forStmt var iter body) span))
      (stmt inMain asBody depth (.node (.forStmt var iter.unplaced body.unplaced) {})) := by
  obtain ⟨kind, place⟩ := iter
  cases kind with
  | range start stop inclusive =>
    rw [unplaced, unplacedKind, stmt, stmt]
    apply (written_alike start).bind
    intro startText
    apply (written_alike stop).bind
    intro stopText
    apply (alike_declareVar _ _).bind
    intro _
    apply (alike_line _ _).bind
    intro _
    apply (hbody.stmt inMain true (depth + 1)).bind
    exact fun _ => alike_line _ _
  | _ =>
    simp only [unplaced, unplacedKind, stmt]
    exact alike_note _ _

theorem elseChain_alike {branch : Option Tree} (h : ∀ t ∈ branch, WrittenAlike t) (inMain : Bool)
    (depth : Nat) :
    Alike (elseChain inMain depth branch) (elseChain inMain depth (branch.map unplaced)) := by
  cases branch with
  | none => exact alike_pure _
  | some t => exact (h t rfl).elseChain inMain depth

theorem ifStmt_alike {cond thenBranch : Tree} {elseBranch : Option Tree} {span : Span}
    (hthen : WrittenAlike thenBranch) (helse : ∀ t ∈ elseBranch, WrittenAlike t)
    (inMain asBody : Bool) (depth : Nat) :
    Alike (stmt inMain asBody depth (.node (.ifStmt cond thenBranch elseBranch) span))
      (stmt inMain asBody depth (.node (.ifStmt cond.unplaced thenBranch.unplaced
        (elseBranch.map unplaced)) {})) := by
  rw [stmt, stmt]
  apply (writtenCondition_alike cond).bind
  intro text
  apply (alike_line _ _).bind
  intro _
  apply (hthen.stmt inMain true (depth + 1)).bind
  intro _
  apply (elseChain_alike helse inMain depth).bind
  exact fun _ => alike_line _ _

/-- A statement is written the same without places if its parts are. -/
theorem stmt_alike {kind : NodeKind String Tree} (span : Span)
    (ih : ∀ t ∈ kind.children, WrittenAlike t) (inMain asBody : Bool) (depth : Nat) :
    Alike (stmt inMain asBody depth (.node kind span))
      (stmt inMain asBody depth (Tree.unplaced (.node kind span))) := by
  cases kind with
  | letStmt name mutable type init =>
    simp only [unplaced, unplacedKind, unplacedOption_eq, stmt]
    exact letStmt_alike depth name type init
  | assign target op value =>
    rw [unplaced, unplacedKind, stmt, stmt]
    apply (written_alike target).bind
    intro targetText
    apply (written_alike value).bind
    exact fun _ => alike_line _ _
  | returnStmt value =>
    cases value with
    | none =>
      simp only [unplaced, unplacedKind, unplacedOption, stmt]
      exact alike_line _ _
    | some value =>
      simp only [unplaced, unplacedKind, unplacedOption, stmt]
      apply (written_alike value).bind
      exact fun _ => alike_line _ _
  | exprStmt e =>
    simp only [unplaced, unplacedKind, stmt]
    apply (written_alike e).bind
    exact fun _ => alike_line _ _
  | ifStmt cond thenBranch elseBranch =>
    rw [unplaced, unplacedKind, unplacedOption_eq]
    apply ifStmt_alike (ih thenBranch (by simp [NodeKind.children]))
    exact fun t ht => ih t (by simp [NodeKind.children, Option.mem_toList.mpr ht])
  | whileStmt cond body =>
    rw [unplaced, unplacedKind, stmt, stmt]
    apply (writtenCondition_alike cond).bind
    intro text
    apply (alike_line _ _).bind
    intro _
    apply ((ih body (by simp [NodeKind.children])).stmt inMain true (depth + 1)).bind
    exact fun _ => alike_line _ _
  | forStmt var iter body =>
    rw [unplaced, unplacedKind]
    exact forStmt_alike (ih body (by simp [NodeKind.children])) inMain asBody depth
  | breakStmt =>
    simp only [unplaced, unplacedKind, stmt]
    exact alike_line _ _
  | continueStmt =>
    simp only [unplaced, unplacedKind, stmt]
    exact alike_line _ _
  | block body =>
    have hbody (depth : Nat) :
        Alike (stmts inMain depth body) (stmts inMain depth (body.map unplaced)) :=
      stmts_alike fun t ht => (ih t ht).stmt inMain false depth
    simp only [unplaced, unplacedKind, unplacedList_eq, stmt]
    split
    · exact hbody depth
    · apply (alike_line _ _).bind
      intro _
      apply (hbody (depth + 1)).bind
      exact fun _ => alike_line _ _
  | _ =>
    simp only [unplaced, unplacedKind, stmt]
    exact alike_note _ _

/-- Every tree is written the same without places, by induction. -/
theorem writtenAlike (t : Tree) : WrittenAlike t := by
  induction t using Tree.induction with
  | step kind span ih =>
    have hstmt := stmt_alike span ih
    constructor
    · exact hstmt
    · intro inMain depth
      -- Only a conditional goes on on the line of the closing brace.
      have hlast (u u' : Tree) (h : Alike (stmt inMain true (depth + 1) u)
          (stmt inMain true (depth + 1) u')) :
          Alike (do Writer.line depth "\x7d else \x7b"; stmt inMain true (depth + 1) u)
            (do Writer.line depth "\x7d else \x7b"; stmt inMain true (depth + 1) u') :=
        (alike_line _ _).bind fun _ => h
      have helse := hlast _ _ (hstmt inMain true (depth + 1))
      cases kind with
      | ifStmt cond thenBranch elseBranch =>
        rw [unplaced, unplacedKind, unplacedOption_eq, elseChain, elseChain]
        apply (writtenCondition_alike cond).bind
        intro text
        apply (alike_line _ _).bind
        intro _
        apply ((ih thenBranch (by simp [NodeKind.children])).stmt inMain true (depth + 1)).bind
        intro _
        apply elseChain_alike
        exact fun t ht => ih t (by simp [NodeKind.children, Option.mem_toList.mpr ht])
      | _ =>
        simp only [unplaced, unplacedKind] at helse
        simp only [unplaced, unplacedKind, elseChain]
        exact helse

end Target

end StagedCompiler
