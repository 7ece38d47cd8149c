import StagedCompiler.Proofs.CSyntax.Stmt

/-!
Statements laid out in lines. Each simple statement has a line of its own, and
each branch stands between braces on the lines of its statement. Laid out like
that, a statement is read back from its tokens: the braces keep every branch to
its own conditional.
-/

namespace StagedCompiler.CSyntax

def assignMark : AssignOp → Mark
  | .assign => .eq
  | .add => .plusEq
  | .sub => .minusEq
  | .mul => .starEq
  | .div => .slashEq
  | .rem => .percentEq
  | .bitAnd => .ampEq
  | .bitOr => .pipeEq
  | .bitXor => .caretEq
  | .shl => .shlEq
  | .shr => .shrEq

def condLine (test : List Lexeme) : List Lexeme :=
  .word "if" :: .mark .lparen :: (test ++ [Lexeme.mark .rparen, .mark .lbrace])

mutual

def CStmt.lines : CStmt → List (List Lexeme)
  | .declare d => [d.tokens ++ [.mark .semicolon]]
  | .assign target op value =>
    [target ++ .mark (assignMark op) :: (value ++ [.mark .semicolon])]
  | .expr e => [e ++ [.mark .semicolon]]
  | .empty => [[.mark .semicolon]]
  | .ret value => [.word "return" :: (value.getD [] ++ [.mark .semicolon])]
  | .brk => [[.word "break", .mark .semicolon]]
  | .cont => [[.word "continue", .mark .semicolon]]
  | .block body => [.mark .lbrace] :: (linesOf body ++ [[.mark .rbrace]])
  | .cond test yes no => condLine test :: (branchLines yes ++ (elseLines no ++ [[.mark .rbrace]]))
  | .loop test body =>
    (.word "while" :: .mark .lparen :: (test ++ [.mark .rparen, .mark .lbrace])) ::
      (branchLines body ++ [[.mark .rbrace]])
  | .count start test next body =>
    (.word "for" :: .mark .lparen :: (start.tokens ++ .mark .semicolon ::
        (test ++ .mark .semicolon :: (next ++ [.mark .rparen, .mark .lbrace])))) ::
      (branchLines body ++ [[.mark .rbrace]])

def linesOf : List CStmt → List (List Lexeme)
  | [] => []
  | c :: cs => c.lines ++ linesOf cs

def branchLines : CStmt → List (List Lexeme)
  | .block body => linesOf body
  | _ => []

/-- The lines of the other branch, up to its closing brace. A conditional goes
on without braces of its own. -/
def elseLines : Option CStmt → List (List Lexeme)
  | none => []
  | some (.cond test yes no) =>
    (.mark .rbrace :: .word "else" :: condLine test) :: (branchLines yes ++ elseLines no)
  | some (.block body) => [.mark .rbrace, .word "else", .mark .lbrace] :: linesOf body
  | some _ => []

end

/-- A block or a conditional, which may be the other branch of one. -/
def CStmt.isBranch : CStmt → Bool
  | .block _ | .cond .. => true
  | _ => false

/-- Whether tokens can be the beginning of an expression that is a statement. -/
def leads (types : List String) (ts : List Lexeme) : Bool :=
  match ts.head? with
  | some (.word w) => isFree types w
  | some (.mark m) => m == .lparen
  | some _ => true
  | none => false

/-- A statement that is read as it is laid out. -/
inductive CStmt.Tidy (types : List String) : CStmt → Prop
  | declare {d : CDecl} : d.Tidy types → Tidy types (.declare d)
  | assign {target value : List Lexeme} (op : AssignOp) : leads types target = true →
      Nested isPlain target → Nested isInner value → Tidy types (.assign target op value)
  | expr {e : List Lexeme} : leads types e = true → Nested isPlain e → Tidy types (.expr e)
  | leave : Tidy types (.ret none)
  | ret {value : List Lexeme} : value ≠ [] → Nested isInner value → Tidy types (.ret (some value))
  | brk : Tidy types .brk
  | cont : Tidy types .cont
  | block {body : List CStmt} : (∀ c ∈ body, Tidy types c) → Tidy types (.block body)
  | cond {test : List Lexeme} {yes : List CStmt} {no : Option CStmt} : Nested isInner test →
      (∀ c ∈ yes, Tidy types c) → (∀ c ∈ no, c.isBranch = true) → (∀ c ∈ no, Tidy types c) →
        Tidy types (.cond test (.block yes) no)
  | loop {test : List Lexeme} {body : List CStmt} : Nested isInner test →
      (∀ c ∈ body, Tidy types c) → Tidy types (.loop test (.block body))
  | count {start : CDecl} {test next : List Lexeme} {body : List CStmt} : start.Tidy types →
      Nested isInner test → Nested isInner next → (∀ c ∈ body, Tidy types c) →
        Tidy types (.count start test next (.block body))

/-! ### Tokens of lines -/

theorem linesOf_eq (cs : List CStmt) : linesOf cs = cs.flatMap CStmt.lines := by
  induction cs with
  | nil => rw [linesOf, List.flatMap_nil]
  | cons c cs ih => rw [linesOf, List.flatMap_cons, ih]

theorem flatten_block (body : List CStmt) :
    (CStmt.block body).lines.flatten =
      .mark .lbrace :: ((linesOf body).flatten ++ [Lexeme.mark .rbrace]) := by
  simp [CStmt.lines]

/-- The other branch has the tokens of its own lines, behind its keyword. -/
theorem flatten_elseLines {c : CStmt} (h : c.isBranch = true) :
    (elseLines (some c)).flatten ++ [Lexeme.mark .rbrace] =
      .mark .rbrace :: .word "else" :: c.lines.flatten := by
  cases c with
  | block body => simp [elseLines, flatten_block]
  | cond test yes no => simp [elseLines, CStmt.lines]
  | _ => cases h

theorem flatten_cond (test : List Lexeme) (yes : List CStmt) {no : Option CStmt}
    (h : ∀ c ∈ no, c.isBranch = true) :
    (CStmt.cond test (.block yes) no).lines.flatten =
      .word "if" :: .mark .lparen :: (test ++ .mark .rparen ::
        ((CStmt.block yes).lines.flatten ++
          (no.map fun c => .word "else" :: c.lines.flatten).getD [])) := by
  cases no with
  | none => simp [CStmt.lines, condLine, elseLines, branchLines]
  | some c =>
    have helse := flatten_elseLines (h c rfl)
    simp [CStmt.lines, condLine, branchLines, helse]

/-! ### Reading back -/

section

variable {types : List String} {ts rest : List Lexeme} {r : CStmt × List Lexeme} {c : CStmt}
  {done : List CStmt}

theorem assignOp?_assignMark (op : AssignOp) : assignOp? (assignMark op) = some op := by
  cases op <;> rfl

theorem simple?_expr {e : List Lexeme} (h : Nested isPlain e) (hne : e ≠ []) (rest : List Lexeme) :
    simple? (e ++ .mark .semicolon :: rest) = some (.expr e, rest) := by
  rw [simple?, run?_eq h rfl]
  simp [hne]

theorem simple?_assign {target value : List Lexeme} (htarget : Nested isPlain target)
    (hvalue : Nested isInner value) (op : AssignOp) (rest : List Lexeme) :
    simple? (target ++ .mark (assignMark op) :: (value ++ .mark .semicolon :: rest)) =
      some (.assign target op value, rest) := by
  have hsign : isPlain (.mark (assignMark op)) = false ∧ assignMark op ≠ .semicolon := by
    cases op <;> decide
  have hvalue := upTo?_eq hvalue .semicolon rfl rest
  rw [simple?, run?_eq htarget hsign.1]
  simp [hsign.2, assignOp?_assignMark, hvalue]

theorem leads_append (h : leads types ts = true) (rest : List Lexeme) :
    leads types (ts ++ rest) = true := by
  cases ts with
  | nil => cases h
  | cons t ts => exact h

theorem lookup_heads_of_isFree {w : String} (h : isFree types w = true) :
    heads.lookup w = none := by
  have hall : ∀ entry ∈ heads, isKeyword entry.1 = true := by decide
  rw [List.lookup_eq_none_iff]
  intro entry hentry
  rw [bne_iff_ne]
  rintro rfl
  simp [isFree, hall entry hentry] at h

/-- A statement that starts with an operand has no other form. -/
theorem reads_simple (hleads : leads types ts = true) (h : simple? ts = some r) :
    ReadsStmt types .statement ts r := by
  refine ⟨1, ?_⟩
  rw [readStmt, stmtStep, statementStep]
  cases ts with
  | nil => cases hleads
  | cons t ts =>
    cases t with
    | word w =>
      have hfree : isFree types w = true := hleads
      simp only [List.head?_cons, lookup_heads_of_isFree hfree, hfree, if_true, h]
    | mark m =>
      have hparen : m = .lparen := by simpa [leads] using hleads
      simp [hparen] at h ⊢
      exact h
    | number _ | string _ | char _ => exact h

theorem reads_head {w : String} {head : Head} (hw : heads.lookup w = some head) (n : Nat)
    (h : headStep types (readStmt types n) ts head = some r) :
    ReadsStmt types .statement (.word w :: ts) r := by
  refine ⟨n + 1, ?_⟩
  rw [readStmt, stmtStep, statementStep]
  simp only [List.head?_cons, hw, List.tail_cons, h]

theorem reads_open (h : ReadsStmt types (.items []) ts r) :
    ReadsStmt types .statement (.mark .lbrace :: ts) r := by
  obtain ⟨n, hn⟩ := h
  exact ⟨n + 1, hn⟩

theorem reads_close : ReadsStmt types (.items done) (.mark .rbrace :: rest) (.block done, rest) :=
  ⟨1, rfl⟩

theorem CDecl.Tidy.tokens_front {d : CDecl} (h : d.Tidy types) :
    ∃ w rest, d.tokens = .word w :: rest ∧ (w = "struct" ∨ w ∈ typeWords) := by
  obtain ⟨w, rest, htype, hmem⟩ := h.type.front
  refine ⟨w, rest ++ .word d.name :: (d.dims ++ (d.init.map (.mark .eq :: ·)).getD []), ?_, hmem⟩
  rw [CDecl.tokens, htype, List.cons_append]

/-- A declaration with its semicolon is read as one item of the block. -/
theorem reads_declaration {d : CDecl} (hd : d.Tidy types)
    (h : ReadsStmt types (.items (done ++ [.declare d])) rest r) :
    ReadsStmt types (.items done) (d.tokens ++ .mark .semicolon :: rest) r := by
  obtain ⟨n, hn⟩ := h
  refine ⟨n + 1, ?_⟩
  have hdecl := declaration?_eq hd rest
  obtain ⟨w, more, hfront, hmem⟩ := hd.tokens_front
  rw [hfront] at hdecl ⊢
  have hstarts : startsDeclaration types (.word w :: more ++ .mark .semicolon :: rest) = true := by
    simp [startsDeclaration, hmem]
  rw [readStmt, stmtStep, itemsStep, if_neg (by simp), if_pos hstarts, hdecl]
  exact hn

/-- Neither the end of a block nor the other branch of a conditional. -/
def Begins (ts : List Lexeme) : Prop :=
  ∃ t rest, ts = t :: rest ∧ t ≠ .mark .rbrace ∧ t ≠ .word "else"

theorem reads_item (hbegins : Begins ts) (hdecl : startsDeclaration types ts = false)
    (hstmt : ReadsStmt types .statement ts (c, rest))
    (h : ReadsStmt types (.items (done ++ [c])) rest r) : ReadsStmt types (.items done) ts r := by
  obtain ⟨n, hn, hm⟩ := hstmt.both h
  obtain ⟨t, more, rfl, hends, -⟩ := hbegins
  have hgo : ¬(t :: more).head? = some (.mark .rbrace) := by simpa using hends
  refine ⟨n + 1, ?_⟩
  rw [readStmt, stmtStep, itemsStep, if_neg hgo, hdecl, if_neg (by simp), hn]
  exact hm

/-- The beginning of an expression is that of no declaration and ends nothing. -/
theorem begins_of_leads (h : leads types ts = true) :
    Begins ts ∧ startsDeclaration types ts = false := by
  cases ts with
  | nil => cases h
  | cons t ts =>
    cases t with
    | word w =>
      have hfree : isFree types w = true := h
      have hname : isTypeName types w = false := by
        simp only [isFree, Bool.and_eq_true, Bool.not_eq_true'] at hfree
        rw [isTypeName, hfree.2, Bool.and_false]
      have helse : w ≠ "else" := by
        rintro rfl
        cases hfree
      refine ⟨⟨_, _, rfl, by simp, by simpa using helse⟩, ?_⟩
      simp [startsDeclaration, hname, not_specifier_of_isFree hfree]
    | mark m =>
      have hparen : m = .lparen := by simpa [leads] using h
      rw [hparen]
      exact ⟨⟨_, _, rfl, by simp, by simp⟩, rfl⟩
    | number _ | string _ | char _ => exact ⟨⟨_, _, rfl, by simp, by simp⟩, rfl⟩

theorem begins_of_head {w : String} {head : Head} (h : heads.lookup w = some head) :
    Begins (.word w :: ts) ∧ startsDeclaration types (.word w :: ts) = false := by
  have hall : ∀ entry ∈ heads, isKeyword entry.1 = true ∧ entry.1 ≠ "else" ∧
      ¬(entry.1 = "struct" ∨ entry.1 ∈ typeWords) := by decide
  obtain ⟨before, after, hheads, -⟩ := List.lookup_eq_some_iff.mp h
  obtain ⟨hkeyword, helse, hnot⟩ := hall (w, head) (by rw [hheads]; simp)
  refine ⟨⟨_, _, rfl, by simp, by simpa using helse⟩, ?_⟩
  simp only [startsDeclaration, List.head?_cons, isTypeName, hkeyword, decide_eq_false hnot]
  rfl

/-- The statement is read back from its lines, alone and in a block. -/
structure ReadsBack (types : List String) (c : CStmt) : Prop where
  begins : Begins c.lines.flatten
  alone (hbranch : c.isBranch = true) (rest : List Lexeme)
    (hrest : rest.head? ≠ some (.word "else")) :
    ReadsStmt types .statement (c.lines.flatten ++ rest) (c, rest)
  item (done : List CStmt) (rest : List Lexeme) (r : CStmt × List Lexeme)
    (hrest : rest.head? ≠ some (.word "else"))
    (h : ReadsStmt types (.items (done ++ [c])) rest r) :
    ReadsStmt types (.items done) (c.lines.flatten ++ rest) r

theorem ReadsBack.of_statement (hlines : c.lines.flatten = ts)
    (hbegins : ∀ rest, Begins (ts ++ rest) ∧ startsDeclaration types (ts ++ rest) = false)
    (h : ∀ rest, rest.head? ≠ some (.word "else") →
      ReadsStmt types .statement (ts ++ rest) (c, rest)) : ReadsBack types c where
  begins := by
    rw [hlines, ← List.append_nil ts]
    exact (hbegins []).1
  alone _ rest hrest := hlines ▸ h rest hrest
  item done rest r hrest hnext := by
    rw [hlines]
    exact reads_item (hbegins rest).1 (hbegins rest).2 (h rest hrest) hnext

theorem ReadsBack.of_head {w : String} {head : Head} (hw : heads.lookup w = some head)
    (hlines : c.lines.flatten = .word w :: ts)
    (h : ∀ rest, rest.head? ≠ some (.word "else") →
      ∃ n, headStep types (readStmt types n) (ts ++ rest) head = some (c, rest)) :
    ReadsBack types c := by
  apply ReadsBack.of_statement hlines
  · exact fun rest => begins_of_head hw
  · intro rest hrest
    obtain ⟨n, hn⟩ := h rest hrest
    exact reads_head hw n hn

/-- Statements in a row, up to the end of their block. -/
theorem reads_row {cs : List CStmt} (h : ∀ c ∈ cs, ReadsBack types c)
    (hnext : ReadsStmt types (.items (done ++ cs)) (.mark .rbrace :: rest) r) :
    ReadsStmt types (.items done) ((linesOf cs).flatten ++ .mark .rbrace :: rest) r := by
  induction cs generalizing done with
  | nil =>
    rw [List.append_nil] at hnext
    rw [linesOf]
    exact hnext
  | cons c cs ih =>
    have hrow : ReadsStmt types (.items (done ++ [c])) _ r :=
      ih (fun c' hc' => h c' (List.mem_cons_of_mem _ hc')) (by simpa using hnext)
    have hbehind : ((linesOf cs).flatten ++ .mark .rbrace :: rest).head? ≠ some (.word "else") := by
      cases cs with
      | nil => simp [linesOf]
      | cons c' cs =>
        obtain ⟨t, more, ht, -, helse⟩ := (h c' (by simp)).begins
        simp [linesOf, ht, helse]
    have hitem := (h c (by simp)).item done _ r hbehind hrow
    rw [linesOf, List.flatten_append, List.append_assoc]
    exact hitem

theorem reads_block {body : List CStmt} (h : ∀ c ∈ body, ReadsBack types c) (rest : List Lexeme) :
    ReadsStmt types .statement ((CStmt.block body).lines.flatten ++ rest) (.block body, rest) := by
  have hrow : ReadsStmt types (.items []) ((linesOf body).flatten ++ .mark .rbrace :: rest)
      (.block body, rest) := reads_row h reads_close
  rw [flatten_block, List.cons_append, List.append_assoc]
  exact reads_open hrow

/-- A conditional is read back if its test, its branch and what is behind `else`
are. -/
theorem readsBack_cond {test : List Lexeme} {yes : List CStmt} {no : Option CStmt}
    (htest : Nested isInner test) (hyes : ∀ c ∈ yes, ReadsBack types c)
    (hbranch : ∀ c ∈ no, c.isBranch = true) (hno : ∀ c ∈ no, ReadsBack types c) :
    ReadsBack types (.cond test (.block yes) no) := by
  apply ReadsBack.of_head (rfl : heads.lookup "if" = some .ifHead) (flatten_cond test yes hbranch)
  intro rest hrest
  cases no with
  | none =>
    obtain ⟨n, hn⟩ := reads_block hyes rest
    have hparen := enclosed?_eq htest ((CStmt.block yes).lines.flatten ++ rest)
    refine ⟨n, ?_⟩
    simp only [Option.map_none, Option.getD_none, List.append_nil, List.cons_append,
      List.append_assoc, headStep, condStep, hparen, Option.bind_some, hn, if_neg hrest]
  | some c =>
    have hother := (hno c rfl).alone (hbranch c rfl) rest hrest
    obtain ⟨n, hn, hm⟩ := (reads_block hyes (.word "else" :: (c.lines.flatten ++ rest))).both hother
    have hparen := enclosed?_eq htest ((CStmt.block yes).lines.flatten ++
      .word "else" :: (c.lines.flatten ++ rest))
    refine ⟨n, ?_⟩
    simp only [Option.map_some, Option.getD_some, List.cons_append, List.append_assoc, headStep,
      condStep, hparen, Option.bind_some, hn, List.head?_cons, if_true, List.tail_cons, hm]

/-- A loop is read back if its test and the statements of its body are. -/
theorem readsBack_loop {test : List Lexeme} {body : List CStmt} (htest : Nested isInner test)
    (hbody : ∀ c ∈ body, ReadsBack types c) : ReadsBack types (.loop test (.block body)) := by
  have hlines : (CStmt.loop test (.block body)).lines.flatten = .word "while" :: .mark .lparen ::
      (test ++ .mark .rparen :: (CStmt.block body).lines.flatten) := by
    simp [CStmt.lines, branchLines]
  apply ReadsBack.of_head (rfl : heads.lookup "while" = some .whileHead) hlines
  intro rest _
  obtain ⟨n, hn⟩ := reads_block hbody rest
  have hparen := enclosed?_eq htest ((CStmt.block body).lines.flatten ++ rest)
  refine ⟨n, ?_⟩
  simp only [List.cons_append, List.append_assoc, headStep, loopStep, hparen, Option.bind_some, hn]
  rfl

/-- A counting loop is read back if its three parts and its body are. -/
theorem readsBack_count {start : CDecl} {test next : List Lexeme} {body : List CStmt}
    (hstart : start.Tidy types) (htest : Nested isInner test) (hnext : Nested isInner next)
    (hbody : ∀ c ∈ body, ReadsBack types c) :
    ReadsBack types (.count start test next (.block body)) := by
  have hlines : (CStmt.count start test next (.block body)).lines.flatten =
      .word "for" :: .mark .lparen :: (start.tokens ++ .mark .semicolon :: (test ++
        .mark .semicolon :: (next ++ .mark .rparen :: (CStmt.block body).lines.flatten))) := by
    simp [CStmt.lines, branchLines]
  apply ReadsBack.of_head (rfl : heads.lookup "for" = some .forHead) hlines
  intro rest _
  obtain ⟨n, hn⟩ := reads_block hbody rest
  have hdecl := declaration?_eq hstart
  have hsecond := upTo?_eq htest .semicolon rfl
  have hthird := upTo?_eq hnext .rparen rfl
  refine ⟨n, ?_⟩
  simp only [List.cons_append, List.append_assoc, headStep, countStep, List.head?_cons, if_true,
    List.tail_cons, hdecl, hsecond, hthird, Option.bind_some, hn]
  rfl

/-- A statement that is laid out is read back. -/
theorem CStmt.Tidy.readsBack (h : c.Tidy types) : ReadsBack types c := by
  induction h with
  | @declare d hd =>
    have hlines : (CStmt.declare d).lines.flatten = d.tokens ++ [Lexeme.mark .semicolon] := by
      simp [CStmt.lines]
    obtain ⟨w, more, hfront, hmem⟩ := hd.tokens_front
    constructor
    · rw [hlines, hfront]
      refine ⟨_, _, rfl, by simp, ?_⟩
      intro helse
      cases helse
      exact absurd hmem (by decide)
    · intro hbranch
      cases hbranch
    · intro done rest r _ hnext
      rw [hlines, List.append_assoc]
      exact reads_declaration hd hnext
  | @assign target value op hleads htarget hvalue =>
    have hlines : (CStmt.assign target op value).lines.flatten =
        target ++ .mark (assignMark op) :: (value ++ [Lexeme.mark .semicolon]) := by
      simp [lines]
    apply ReadsBack.of_statement hlines
    · intro rest
      rw [List.append_assoc]
      exact begins_of_leads (leads_append hleads _)
    · intro rest _
      have hsimple := simple?_assign htarget hvalue op rest
      simp only [List.append_assoc, List.cons_append, List.nil_append]
      exact reads_simple (leads_append hleads _) hsimple
  | @expr e hleads he =>
    have hne : e ≠ [] := by
      rintro rfl
      cases hleads
    have hlines : (CStmt.expr e).lines.flatten = e ++ [Lexeme.mark .semicolon] := by simp [lines]
    apply ReadsBack.of_statement hlines
    · intro rest
      rw [List.append_assoc]
      exact begins_of_leads (leads_append hleads _)
    · intro rest _
      rw [List.append_assoc]
      exact reads_simple (leads_append hleads _) (simple?_expr he hne rest)
  | leave =>
    apply ReadsBack.of_head (rfl : heads.lookup "return" = some .returnHead) (by simp [lines]; rfl)
    intro rest _
    exact ⟨0, rfl⟩
  | @ret value hne hvalue =>
    have hlines : (CStmt.ret (some value)).lines.flatten =
        .word "return" :: (value ++ [Lexeme.mark .semicolon]) := by
      simp [lines]
    apply ReadsBack.of_head (rfl : heads.lookup "return" = some .returnHead) hlines
    intro rest _
    have hreads := upTo?_eq hvalue .semicolon rfl rest
    refine ⟨0, ?_⟩
    rw [List.append_assoc]
    simp [headStep, hreads, hne]
  | brk =>
    apply ReadsBack.of_head (rfl : heads.lookup "break" = some .breakHead) (by simp [lines]; rfl)
    exact fun rest _ => ⟨0, rfl⟩
  | cont =>
    apply ReadsBack.of_head (rfl : heads.lookup "continue" = some .continueHead)
      (by simp [lines]; rfl)
    exact fun rest _ => ⟨0, rfl⟩
  | @block body _ ih =>
    apply ReadsBack.of_statement rfl
    · intro rest
      rw [flatten_block]
      exact ⟨⟨_, _, rfl, by simp, by simp⟩, rfl⟩
    · exact fun rest _ => reads_block ih rest
  | cond htest _ hbranch _ ihyes ihno => exact readsBack_cond htest ihyes hbranch ihno
  | loop htest _ ih => exact readsBack_loop htest ih
  | count hstart htest hnext _ ih => exact readsBack_count hstart htest hnext ih

end

/-! ### Functions -/

structure CFunction where
  type : List Lexeme
  name : String
  /-- The parameters, with their parentheses. -/
  params : List Lexeme
  body : List CStmt

def CFunction.lines (f : CFunction) : List (List Lexeme) :=
  (f.type ++ .word f.name :: (f.params ++ [.mark .lbrace])) ::
    (linesOf f.body ++ [[.mark .rbrace], []])

def wholeBlock? : Option (CStmt × List Lexeme) → Option (List CStmt)
  | some (.block body, []) => some body
  | _ => none

def function? (types : List String) (n : Nat) (ts : List Lexeme) : Option CFunction :=
  (declarator? types ts).bind fun d => (run? (· == .mark .lparen) [] d.2).bind fun params =>
    if params.2.head? = some (.mark .lbrace) ∧ params.1 ≠ [] then
      (wholeBlock? (readStmt types n (.items []) params.2.tail)).map fun body =>
        ⟨d.1.1, d.1.2, params.1, body⟩
    else none

/-- The whole text is read as the definition, where these are names of types. -/
def ReadsFunction (types : List String) (text : String) (f : CFunction) : Prop :=
  ∃ ts, lexemes? text = some ts ∧ ∃ n, function? types n ts = some f

structure CFunction.Tidy (types : List String) (f : CFunction) : Prop where
  type : TypeForm f.type
  name : isFree types f.name = true
  params : Nested (· == .mark .lparen) f.params
  some_params : f.params ≠ []
  body : ∀ c ∈ f.body, c.Tidy types

section

variable {types : List String} {text : String} {f f' : CFunction}

/-- More steps read the same definition. -/
theorem function?_mono {n m : Nat} (hle : n ≤ m) {ts : List Lexeme}
    (h : function? types n ts = some f) : function? types m ts = some f := by
  apply bind_mono (fun _ hd => hd) _ h
  intro d hd
  apply bind_mono (fun _ hparams => hparams) _ hd
  intro params hparams
  split at hparams
  · rw [if_pos ‹_›]
    apply map_mono _ hparams
    intro body hbody
    cases hread : readStmt types n (.items []) params.2.tail with
    | none =>
      rw [hread] at hbody
      cases hbody
    | some r =>
      rw [readStmt_mono hle _ _ _ hread, ← hread]
      exact hbody
  · cases hparams

/-- There is only one way to read a definition. -/
theorem ReadsFunction.unique (h : ReadsFunction types text f) (h' : ReadsFunction types text f') :
    f = f' := by
  obtain ⟨ts, hts, n, hn⟩ := h
  obtain ⟨ts', hts', m, hm⟩ := h'
  rw [hts] at hts'
  cases hts'
  have hleft := function?_mono (Nat.le_max_left n m) hn
  have hright := function?_mono (Nat.le_max_right n m) hm
  rw [hleft] at hright
  exact Option.some.inj hright

theorem CFunction.Tidy.readsFunction (h : f.Tidy types)
    (htext : lexemes? text = some f.lines.flatten) :
    ReadsFunction types text f := by
  have hbody (c : CStmt) (hc : c ∈ f.body) : ReadsBack types c := (h.body c hc).readsBack
  have hrow : ReadsStmt types (.items []) ((linesOf f.body).flatten ++ [Lexeme.mark .rbrace])
      (.block f.body, []) := reads_row hbody reads_close
  obtain ⟨n, hn⟩ := hrow
  have hflatten : f.lines.flatten = f.type ++ .word f.name :: (f.params ++ .mark .lbrace ::
      ((linesOf f.body).flatten ++ [Lexeme.mark .rbrace])) := by
    simp [CFunction.lines]
  have hparams := run?_eq h.params (t := .mark .lbrace) rfl
    ((linesOf f.body).flatten ++ [Lexeme.mark .rbrace])
  refine ⟨_, htext, n, ?_⟩
  rw [hflatten, function?, declarator?_eq h.type h.name, Option.bind_some, hparams,
    Option.bind_some, if_pos ⟨rfl, h.some_params⟩, List.tail_cons, hn]
  rfl

end

end StagedCompiler.CSyntax
