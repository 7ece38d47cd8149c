import StagedCompiler.Proofs.Target.StmtWriting

/-!
What the writer makes of the statements of a unit. Each statement becomes the
lines of its mirror, branch for branch, and the lines can be read back. A
branch behind `else` goes on on the line of the closing brace if it is a
conditional, and opens a block of its own if it is a block, so the two stay
apart.
-/

namespace StagedCompiler.CSyntax

open Target (CType Scope Writer expr condition letType lower)
open Shape

/-! ### Expressions in statements -/

section

variable {types : List String} {s : Scope} {n : Nat} {t : Tree}

theorem phrase_of_expr (hs : WritableScope s) (h : Expr n t) (hfit : Fit types t) :
    Phrase types (expr s false t) (moreBehind t) :=
  ((exprText_of_expr hs h).1 hfit).phrase

theorem nested_inner {ts : List Lexeme} (h : Nested isPlain ts) : Nested isInner ts :=
  h.mono fun _ => isInner_of_isPlain

/-- A condition may stand in parentheses, though an operation has none of its
own there. -/
theorem initializer_condition (hs : WritableScope s) (h : Expr n t) (hfit : Fit types t) :
    Initializer (condition s t) := by
  obtain ⟨kind, span⟩ := t
  cases kind with
  | binary op lhs rhs =>
    have hpart (u : Tree) (hu : u ∈ [lhs, rhs]) : ExprText types s u :=
      (exprText_of_expr hs h).2 u hu (hfit.children rfl u hu)
    have hlhs := hpart lhs (by simp)
    have hrhs := hpart rhs (by simp)
    exact hlhs.phrase.operation hrhs.phrase op
  | _ => exact (phrase_of_expr hs h hfit).initializer

theorem isUsable_iff {name : String} :
    isUsable types name = true ↔ isWord name.toList = true ∧ isFree types name = true := by
  rw [isUsable, Bool.and_eq_true]

end

/-! ### Statements -/

/-- The writer adds the lines of a statement that is read back, and every type
that is known behind it can be written. -/
structure Lays (types : List String) (w : Writer Unit) (s : Scope) (r : CStmt × Scope)
    (lines : List (List Lexeme)) : Prop where
  emits : Emits w s r.2 lines
  tidy : r.1.Tidy types
  writable : WritableScope r.2

section

variable {types : List String} {s : Scope} {n : Nat} {span : Span} (inMain : Bool) (depth : Nat)

/-- A declaration is one line, whatever its type and value are told from. -/
theorem letStmt_lays {name : String} {mutable : Bool} {type init : Option Tree}
    (hs : WritableScope s) (hinit : ∀ e ∈ init, Expr n e)
    (hfit : Fit types (.node (.letStmt name mutable type init) span)) :
    Lays types (Target.stmt inMain false depth (.node (.letStmt name mutable type init) span)) s
      ((mirror inMain (.node (.letStmt name mutable type init) span)).run s)
      ((mirror inMain (.node (.letStmt name mutable type init) span)).run s).1.lines := by
  obtain ⟨hword, hfree⟩ := isUsable_iff.mp hfit.at_node.1
  have hreadable := (Tree.all_node.mp hfit.readable).2
  have hwritable : isWritable (letType s type init) = true := by
    apply (inherited_isWritable types).holds_letType hs.holds
    · exact fun t ht => hreadable t (by simp [NodeKind.children, Option.mem_toList.mpr ht])
    · exact fun e he => hreadable e (by simp [NodeKind.children, Option.mem_toList.mpr he])
  have htext (e : Tree) (he : e ∈ init) : Initializer (expr s true e) := by
    have hchild := hfit.children rfl e (by simp [NodeKind.children, Option.mem_toList.mpr he])
    exact ((exprText_of_expr hs (hinit e he)).1 hchild).initializer
  rw [mirror, Target.stmt]
  constructor
  · apply emits_get
    intro st hst
    dsimp only
    rw [hst]
    apply (emits_note _).silent
    cases init with
    | none =>
      exact (emits_line depth (lineOf_declare hwritable hword)).bind (emits_declareVar name _)
    | some e =>
      obtain ⟨hspells, hunbroken⟩ := spells_declareInit hwritable hword (htext e rfl)
      apply (emits_note _).silent
      have hline := lineOf_semicolon hspells (by decide) hunbroken
      exact (emits_line depth hline).bind (emits_declareVar name _)
  · apply CStmt.Tidy.declare
    apply declared_tidy hwritable hfree
    intro ts hts
    obtain ⟨e, he, rfl⟩ := Option.map_eq_some_iff.mp hts
    exact nested_inner (htext e he).nested
  · exact hs.declareVar hwritable name

theorem assign_lays {target value : Tree} {op : AssignOp} (hs : WritableScope s)
    (htarget : Expr n target) (hvalue : Expr n value)
    (hfit : Fit types (.node (.assign target op value) span)) :
    Lays types (Target.stmt inMain false depth (.node (.assign target op value) span)) s
      ((mirror inMain (.node (.assign target op value) span)).run s)
      ((mirror inMain (.node (.assign target op value) span)).run s).1.lines := by
  have hfits := hfit.children rfl
  have hleft := phrase_of_expr hs htarget (hfits target (by simp [NodeKind.children]))
  have hright := phrase_of_expr hs hvalue (hfits value (by simp [NodeKind.children]))
  rw [mirror, Target.stmt]
  constructor
  · apply emits_written
    apply emits_written
    exact emits_line depth (lineOf_assign hleft hright op)
  · exact .assign op hleft.leads hleft.nested (nested_inner hright.nested)
  · exact hs

theorem exprStmt_lays {e : Tree} (hs : WritableScope s) (he : Expr n e)
    (hfit : Fit types (.node (.exprStmt e) span)) :
    Lays types (Target.stmt inMain false depth (.node (.exprStmt e) span)) s
      ((mirror inMain (.node (.exprStmt e) span)).run s)
      ((mirror inMain (.node (.exprStmt e) span)).run s).1.lines := by
  have hphrase := phrase_of_expr hs he (hfit.children rfl e (by simp [NodeKind.children]))
  rw [mirror, Target.stmt]
  constructor
  · apply emits_written
    exact emits_line depth (lineOf_expr hphrase)
  · exact .expr hphrase.leads hphrase.nested
  · exact hs

theorem lexemesOf_ne_nil {text : String} {more : List Char} (h : Phrase types text more) :
    lexemesOf text ≠ [] := by
  intro hnil
  have hleads := h.leads
  rw [hnil] at hleads
  cases hleads

theorem returnStmt_lays {value : Option Tree} (hs : WritableScope s)
    (hvalue : ∀ t ∈ value, Expr n t) (hfit : Fit types (.node (.returnStmt value) span)) :
    Lays types (Target.stmt inMain false depth (.node (.returnStmt value) span)) s
      ((mirror inMain (.node (.returnStmt value) span)).run s)
      ((mirror inMain (.node (.returnStmt value) span)).run s).1.lines := by
  cases value with
  | none =>
    rw [mirror, Target.stmt]
    cases inMain with
    | false =>
      have hline := lineOf_word (w := "return") (by decide)
      exact ⟨emits_line depth hline, .leave, hs⟩
    | true =>
      have hzero : Phrase types "0" [] := phrase_number (quiet_of_plain (by decide)) (by decide)
      have hline := lineOf_return hzero
      exact ⟨emits_line depth hline, .ret (by simp) (nested_inner hzero.nested), hs⟩
  | some e =>
    have hphrase := phrase_of_expr hs (hvalue e rfl)
      (hfit.children rfl e (by simp [NodeKind.children]))
    rw [mirror, Target.stmt]
    constructor
    · apply emits_written
      exact emits_line depth (lineOf_return hphrase)
    · exact .ret (lexemesOf_ne_nil hphrase) (nested_inner hphrase.nested)
    · exact hs

end

/-! ### Statements with parts -/

/-- Statements in a row, with the lines of all of them. -/
structure LaysAll (types : List String) (w : Writer Unit) (s : Scope) (r : List CStmt × Scope) :
    Prop where
  emits : Emits w s r.2 (linesOf r.1)
  tidy : ∀ c ∈ r.1, c.Tidy types
  writable : WritableScope r.2

structure LaysBlock (types : List String) (inMain : Bool) (t : Tree) (s : Scope)
    (r : CStmt × Scope) : Prop where
  block : ∃ body, r.1 = .block body ∧ ∀ c ∈ body, c.Tidy types
  whole (depth : Nat) : Emits (Target.stmt inMain false depth t) s r.2 r.1.lines
  inner (depth : Nat) : Emits (Target.stmt inMain true depth t) s r.2 (branchLines r.1)
  writable : WritableScope r.2

structure LaysElse (types : List String) (inMain : Bool) (t : Option Tree) (s : Scope)
    (r : Option CStmt × Scope) : Prop where
  branch : ∀ c ∈ r.1, c.isBranch = true
  emits (depth : Nat) : Emits (Target.elseChain inMain depth t) s r.2 (elseLines r.1)
  tidy : ∀ c ∈ r.1, c.Tidy types
  writable : WritableScope r.2

section

variable {types : List String} {s : Scope} {n : Nat} {span : Span} {inMain : Bool}

/-- Statements in a row are laid out one by one. -/
theorem stmts_lays {ts : List Tree} (depth : Nat)
    (h : ∀ t ∈ ts, ∀ s, WritableScope s → Lays types (Target.stmt inMain false depth t) s
      ((mirror inMain t).run s) ((mirror inMain t).run s).1.lines) (hs : WritableScope s) :
    LaysAll types (Target.stmts inMain depth ts) s ((mirrorAll inMain ts).run s) := by
  induction ts generalizing s with
  | nil =>
    rw [Target.stmts, mirrorAll]
    refine ⟨?_, List.forall_mem_nil _, hs⟩
    have hlines : linesOf [] = [] := by rw [linesOf]
    exact hlines ▸ emits_pure
  | cons t ts ih =>
    have hfirst := h t (by simp) s hs
    have hrest := ih (fun u hu => h u (List.mem_cons_of_mem _ hu)) hfirst.writable
    have hrun : (mirrorAll inMain (t :: ts)).run s =
        (((mirror inMain t).run s).1 :: ((mirrorAll inMain ts).run ((mirror inMain t).run s).2).1,
          ((mirrorAll inMain ts).run ((mirror inMain t).run s).2).2) := by
      rw [mirrorAll]
      rfl
    rw [Target.stmts, hrun]
    refine ⟨?_, ?_, hrest.writable⟩
    · rw [linesOf]
      exact hfirst.emits.bind hrest.emits
    · exact List.forall_mem_cons.mpr ⟨hfirst.tidy, hrest.tidy⟩

/-- A block is laid out with braces of its own or with those of its owner. -/
theorem block_lays {ts : List Tree}
    (h : ∀ depth, LaysAll types (Target.stmts inMain depth ts) s ((mirrorAll inMain ts).run s)) :
    LaysBlock types inMain (.node (.block ts) span) s
      ((mirror inMain (.node (.block ts) span)).run s) := by
  have hrun : (mirror inMain (.node (.block ts) span)).run s =
      (.block ((mirrorAll inMain ts).run s).1, ((mirrorAll inMain ts).run s).2) := by
    rw [mirror]
    rfl
  have hopen := lineOf_single (c := '\x7b') (m := .lbrace) (by decide)
  have hclose := lineOf_single (c := '\x7d') (m := .rbrace) (by decide)
  rw [hrun]
  constructor
  · exact ⟨_, rfl, (h 0).tidy⟩
  · intro depth
    have hrest := (h (depth + 1)).emits.bind (emits_line depth hclose)
    rw [Target.stmt, CStmt.lines, if_neg (by simp)]
    exact (emits_line depth hopen).bind hrest
  · intro depth
    rw [Target.stmt, branchLines, if_pos rfl]
    exact (h depth).emits
  · exact (h 0).writable

theorem LaysBlock.lays {t : Tree} {r : CStmt × Scope} (h : LaysBlock types inMain t s r)
    (depth : Nat) : Lays types (Target.stmt inMain false depth t) s r r.1.lines := by
  obtain ⟨body, hbody, htidy⟩ := h.block
  refine ⟨h.whole depth, ?_, h.writable⟩
  rw [hbody]
  exact .block htidy

theorem whileStmt_lays {cond body : Tree} (hs : WritableScope s) (hcond : Expr n cond)
    (hfit : Fit types (.node (.whileStmt cond body) span))
    (hbody : LaysBlock types inMain body s ((mirror inMain body).run s)) (depth : Nat) :
    Lays types (Target.stmt inMain false depth (.node (.whileStmt cond body) span)) s
      ((mirror inMain (.node (.whileStmt cond body) span)).run s)
      ((mirror inMain (.node (.whileStmt cond body) span)).run s).1.lines := by
  have htest := initializer_condition hs hcond
    (hfit.children rfl cond (by simp [NodeKind.children]))
  have hhead := lineOf_head (w := "while") (by decide) htest.spells (by decide) htest.unbroken
  have hclose := lineOf_single (c := '\x7d') (m := .rbrace) (by decide)
  have hrun : (mirror inMain (.node (.whileStmt cond body) span)).run s =
      (.loop (lexemesOf (condition s cond)) ((mirror inMain body).run s).1,
        ((mirror inMain body).run s).2) := by
    rw [mirror]
    rfl
  rw [hrun]
  refine ⟨?_, ?_, hbody.writable⟩
  · rw [Target.stmt, CStmt.lines]
    apply emits_writtenCondition
    exact (emits_line depth hhead).bind
      ((hbody.inner (depth + 1)).bind (emits_line depth hclose))
  · obtain ⟨stmts, hblock, htidy⟩ := hbody.block
    rw [hblock]
    exact .loop (nested_inner htest.nested) htidy

theorem Fit.of_for {var : String} {start stop body : Tree} {inclusive : Bool} {head : Span}
    (h : Fit types (.node (.forStmt var (.node (.range start stop inclusive) head) body) span)) :
    Fit types start ∧ Fit types stop ∧ Fit types body := by
  have hsound := h.sound
  rw [Target.offences_forRange, List.append_eq_nil_iff, List.append_eq_nil_iff] at hsound
  have hreadable := (Tree.all_node.mp h.readable).2
  have hunsigned := (Tree.all_node.mp h.unsigned).2
  have hnames := (Tree.all_node.mp (hreadable (.node (.range start stop inclusive) head)
    (by simp [NodeKind.children]))).2
  have hsigns := (Tree.all_node.mp (hunsigned (.node (.range start stop inclusive) head)
    (by simp [NodeKind.children]))).2
  refine ⟨⟨hsound.1.1, ?_, ?_⟩, ⟨hsound.1.2, ?_, ?_⟩, ⟨hsound.2, ?_, ?_⟩⟩
  · exact hnames start (by simp [NodeKind.children])
  · exact hsigns start (by simp [NodeKind.children])
  · exact hnames stop (by simp [NodeKind.children])
  · exact hsigns stop (by simp [NodeKind.children])
  · exact hreadable body (by simp [NodeKind.children])
  · exact hunsigned body (by simp [NodeKind.children])

/-- A loop that has a C form goes over a range. -/
theorem Fit.range_of_for {var : String} {iter body : Tree}
    (h : Fit types (.node (.forStmt var iter body) span)) : iter.kind.isRange = true := by
  by_contra hother
  have hsound := h.sound
  rw [Target.offences_forOther (by simpa using hother)] at hsound
  cases hsound

/-- A counting loop declares its variable, which is known in its body. -/
theorem forStmt_lays {var : String} {iter body : Tree} (hs : WritableScope s) (hiter : Expr n iter)
    (hfit : Fit types (.node (.forStmt var iter body) span))
    (hbody : Fit types body → ∀ s, WritableScope s →
      LaysBlock types inMain body s ((mirror inMain body).run s)) (depth : Nat) :
    Lays types (Target.stmt inMain false depth (.node (.forStmt var iter body) span)) s
      ((mirror inMain (.node (.forStmt var iter body) span)).run s)
      ((mirror inMain (.node (.forStmt var iter body) span)).run s).1.lines := by
  obtain ⟨start, stop, inclusive, head, rfl⟩ := Tree.eq_range hfit.range_of_for
  obtain ⟨hword, hfree⟩ := isUsable_iff.mp hfit.at_node.1
  obtain ⟨hstart, hstop, hinner⟩ := hfit.of_for
  have hpart (u : Tree) (hu : u ∈ [start, stop]) (hfit : Fit types u) :
      Initializer (expr s false u) := ((exprText_of_expr hs hiter).2 u hu hfit).phrase.initializer
  have hfirst := hpart start (by simp) hstart
  have hlast := hpart stop (by simp) hstop
  have hline := lineOf_forHead hword hfirst hlast inclusive
  have hclose := lineOf_single (c := '\x7d') (m := .rbrace) (by decide)
  have hscope : WritableScope (s.declareVar var .int) := hs.declareVar (by decide) var
  have hblock := hbody hinner _ hscope
  have hrun : (mirror inMain (.node (.forStmt var (.node (.range start stop inclusive) head) body)
        span)).run s =
      (.count (declared .int var (some (lexemesOf (expr s false start))))
          (.word var :: .mark (if inclusive then .le else .lt) :: lexemesOf (expr s false stop))
          [.word var, .mark .plusPlus] ((mirror inMain body).run (s.declareVar var .int)).1,
        ((mirror inMain body).run (s.declareVar var .int)).2) := by
    rw [mirror]
    rfl
  rw [hrun]
  refine ⟨?_, ?_, hblock.writable⟩
  · rw [Target.stmt, CStmt.lines]
    apply emits_written
    apply emits_written
    apply (emits_declareVar var .int).silent
    exact (emits_line depth hline).bind
      ((hblock.inner (depth + 1)).bind (emits_line depth hclose))
  · obtain ⟨stmts, hstmts, htidy⟩ := hblock.block
    have hdecl : (declared .int var (some (lexemesOf (expr s false start)))).Tidy types := by
      apply declared_tidy (by decide) hfree
      rintro ts ⟨⟩
      exact nested_inner hfirst.nested
    have htest : Nested isInner
        (.word var :: .mark (if inclusive then .le else .lt) :: lexemesOf (expr s false stop)) := by
      apply Nested.token rfl rfl
      have hrest := nested_inner hlast.nested
      cases inclusive with
      | true => exact .token rfl rfl hrest
      | false => exact .token rfl rfl hrest
    rw [hstmts]
    exact .count hdecl htest (.token rfl rfl (.token rfl rfl .nil)) htidy

/-- A conditional shares the brace of its branch with what is behind `else`. -/
theorem ifStmt_lays {cond thenBranch : Tree} {elseBranch : Option Tree} (hs : WritableScope s)
    (hcond : Expr n cond) (hfit : Fit types (.node (.ifStmt cond thenBranch elseBranch) span))
    (hthen : LaysBlock types inMain thenBranch s ((mirror inMain thenBranch).run s))
    (helse : ∀ s, WritableScope s →
      LaysElse types inMain elseBranch s ((mirrorElse inMain elseBranch).run s)) (depth : Nat) :
    Lays types (Target.stmt inMain false depth (.node (.ifStmt cond thenBranch elseBranch) span)) s
        ((mirror inMain (.node (.ifStmt cond thenBranch elseBranch) span)).run s)
        ((mirror inMain (.node (.ifStmt cond thenBranch elseBranch) span)).run s).1.lines ∧
      LaysElse types inMain (some (.node (.ifStmt cond thenBranch elseBranch) span)) s
        ((mirrorElse inMain (some (.node (.ifStmt cond thenBranch elseBranch) span))).run s) := by
  have htest := initializer_condition hs hcond
    (hfit.children rfl cond (by simp [NodeKind.children]))
  have hhead := lineOf_head (w := "if") (by decide) htest.spells (by decide) htest.unbroken
  have hclose := lineOf_single (c := '\x7d') (m := .rbrace) (by decide)
  have helseHead := hhead.behind_brace
  have hno := helse _ hthen.writable
  have hrun : (mirror inMain (.node (.ifStmt cond thenBranch elseBranch) span)).run s =
      (.cond (lexemesOf (condition s cond)) ((mirror inMain thenBranch).run s).1
          ((mirrorElse inMain elseBranch).run ((mirror inMain thenBranch).run s).2).1,
        ((mirrorElse inMain elseBranch).run ((mirror inMain thenBranch).run s).2).2) := by
    rw [mirror]
    rfl
  have hrunElse :
      (mirrorElse inMain (some (.node (.ifStmt cond thenBranch elseBranch) span))).run s =
      (some ((mirror inMain (.node (.ifStmt cond thenBranch elseBranch) span)).run s).1,
        ((mirror inMain (.node (.ifStmt cond thenBranch elseBranch) span)).run s).2) := by
    rw [mirrorElse]
    rfl
  have htidy : ((mirror inMain (.node (.ifStmt cond thenBranch elseBranch) span)).run s).1.Tidy
      types := by
    obtain ⟨stmts, hblock, htidy⟩ := hthen.block
    rw [hrun, hblock]
    exact .cond (nested_inner htest.nested) htidy hno.branch hno.tidy
  rw [hrunElse]
  refine ⟨⟨?_, htidy, ?_⟩, ⟨?_, ?_, ?_, ?_⟩⟩
  · rw [hrun, Target.stmt, CStmt.lines]
    apply emits_writtenCondition
    exact (emits_line depth hhead).bind ((hthen.inner (depth + 1)).bind
      ((hno.emits depth).bind (emits_line depth hclose)))
  · rw [hrun]
    exact hno.writable
  · rintro c ⟨⟩
    rw [hrun]
    rfl
  · intro depth
    rw [hrun, Target.elseChain, elseLines]
    apply emits_writtenCondition
    exact (emits_line depth helseHead).bind
      ((hthen.inner (depth + 1)).bind (hno.emits depth))
  · rintro c ⟨⟩
    exact htidy
  · rw [hrun]
    exact hno.writable

theorem else_lays_block {ts : List Tree}
    (h : LaysBlock types inMain (.node (.block ts) span) s
      ((mirror inMain (.node (.block ts) span)).run s)) :
    LaysElse types inMain (some (.node (.block ts) span)) s
      ((mirrorElse inMain (some (.node (.block ts) span))).run s) := by
  have hrun : (mirrorElse inMain (some (.node (.block ts) span))).run s =
      (some ((mirror inMain (.node (.block ts) span)).run s).1,
        ((mirror inMain (.node (.block ts) span)).run s).2) := by
    rw [mirrorElse]
    rfl
  have hopen := LineOf.behind_brace (lineOf_single (c := '\x7b') (m := .lbrace) (by decide))
  obtain ⟨body, hbody, htidy⟩ := h.block
  have hinner := h.inner
  rw [hbody] at hinner
  rw [hrun, hbody]
  constructor
  · rintro c ⟨⟩
    rfl
  · intro depth
    rw [Target.elseChain, elseLines]
    · exact (emits_line depth hopen).bind (hinner (depth + 1))
    · simp
  · rintro c ⟨⟩
    exact .block htidy
  · exact h.writable

theorem else_lays_none (hs : WritableScope s) :
    LaysElse types inMain none s ((mirrorElse inMain none).run s) := by
  rw [mirrorElse]
  constructor
  · rintro c ⟨⟩
  · intro depth
    rw [Target.elseChain]
    have hlines : elseLines none = [] := by rw [elseLines]
    exact hlines ▸ emits_pure
  · rintro c ⟨⟩
  · exact hs

end

mutual

/-- Every statement is laid out as its mirror. The induction is on the shape;
the scope is any, since statements declare variables for those behind them. -/
theorem stmt_lays {types : List String} {n : Nat} {t : Tree} (h : StmtAt n t)
    (hfit : Fit types t) (inMain : Bool) (depth : Nat) (s : Scope) (hs : WritableScope s) :
    Lays types (Target.stmt inMain false depth t) s ((mirror inMain t).run s)
      ((mirror inMain t).run s).1.lines := by
  match h with
  | .letStmt name mutable span _ hinit => exact letStmt_lays inMain depth hs hinit hfit
  | .assign op span htarget hvalue => exact assign_lays inMain depth hs htarget hvalue hfit
  | .returnStmt span hvalue => exact returnStmt_lays inMain depth hs hvalue hfit
  | .exprStmt span hexpr => exact exprStmt_lays inMain depth hs hexpr hfit
  | @StmtAt.whileStmt _ _ body span hcond hbody =>
    have hinner := hfit.children rfl body (by simp [NodeKind.children])
    exact whileStmt_lays hs hcond hfit (blockAt_lays hbody hinner inMain s hs) depth
  | .forStmt var span hiter hbody =>
    apply forStmt_lays hs hiter hfit
    exact fun hinner s hs => blockAt_lays hbody hinner inMain s hs
  | .breakStmt span =>
    have hline := lineOf_word (w := "break") (by decide)
    rw [mirror, Target.stmt]
    exact ⟨emits_line depth hline, .brk, hs⟩
  | .continueStmt span =>
    have hline := lineOf_word (w := "continue") (by decide)
    rw [mirror, Target.stmt]
    exact ⟨emits_line depth hline, .cont, hs⟩
  | .block hblock => exact (blockAt_lays hblock hfit inMain s hs).lays depth
  | .conditional hif => exact (conditional_lays hif hfit inMain depth s hs).1
termination_by structural h

theorem blockAt_lays {types : List String} {n : Nat} {t : Tree} (h : BlockAt n t)
    (hfit : Fit types t) (inMain : Bool) (s : Scope) (hs : WritableScope s) :
    LaysBlock types inMain t s ((mirror inMain t).run s) := by
  match h with
  | @BlockAt.mk _ ts span hstmts =>
    apply block_lays
    intro depth
    apply stmts_lays depth _ hs
    intro t ht s hs
    have hchild := hfit.children rfl t (by simpa [NodeKind.children] using ht)
    exact stmt_lays (hstmts t ht) hchild inMain depth s hs
termination_by structural h

theorem conditional_lays {types : List String} {n : Nat} {t : Tree} (h : ConditionalAt n t)
    (hfit : Fit types t) (inMain : Bool) (depth : Nat) (s : Scope) (hs : WritableScope s) :
    Lays types (Target.stmt inMain false depth t) s ((mirror inMain t).run s)
        ((mirror inMain t).run s).1.lines ∧
      LaysElse types inMain (some t) s ((mirrorElse inMain (some t)).run s) := by
  match h with
  | @ConditionalAt.mk _ cond thenBranch elseBranch span hcond hthen helse =>
    have hfits := hfit.children rfl
    have hfirst := hfits thenBranch (by simp [NodeKind.children])
    apply ifStmt_lays hs hcond hfit (blockAt_lays hthen hfirst inMain s hs)
    intro s hs
    -- The recursion is on the derivation, so the branch may not be replaced in it.
    rcases Option.eq_none_or_eq_some elseBranch with hnone | ⟨u, hsome⟩
    · rw [hnone]
      exact else_lays_none hs
    · have hother := hfits u (by simp [NodeKind.children, hsome])
      rw [hsome]
      exact else_lays (helse u hsome) hother inMain s hs
termination_by structural h

theorem else_lays {types : List String} {n : Nat} {t : Tree} (h : ElseAt n t)
    (hfit : Fit types t) (inMain : Bool) (s : Scope) (hs : WritableScope s) :
    LaysElse types inMain (some t) s ((mirrorElse inMain (some t)).run s) := by
  match h with
  | .block hblock =>
    have hlays := blockAt_lays hblock hfit inMain s hs
    cases hblock with
    | mk span hstmts => exact else_lays_block hlays
  | .conditional hif => exact (conditional_lays hif hfit inMain 0 s hs).2
termination_by structural h

end

end StagedCompiler.CSyntax
