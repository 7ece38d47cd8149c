import StagedCompiler.Double
import StagedCompiler.Operator
import StagedCompiler.Proofs.CSyntax.Tokens

/-!
Expressions of C and how they are read from tokens. The reader follows the
grammar of the standard: ten levels of operations that group to the left, then
conditionals and assignments that group to the right, then commas. What starts
with a type name (casts, compound literals, `sizeof` of a type) is not read; no
such expression can be written with identifiers that are no type names.

A reading may need any number of steps, so `read` is given how many there are.
More steps never change an answer, so there is at most one.
-/

namespace StagedCompiler.CSyntax

inductive CUnary where
  | addr | deref | plus | minus | compl | not | increment | decrement
deriving DecidableEq

inductive CExpr where
  | ident (name : String)
  | int (value : Nat)
  | float (value : Double)
  | str (content : List UInt8)
  | char (value : UInt8)
  | unary (op : CUnary) (operand : CExpr)
  /-- An increment or decrement behind its operand. -/
  | stepped (up : Bool) (operand : CExpr)
  | binary (op : BinaryOp) (lhs rhs : CExpr)
  | call (callee : CExpr) (args : List CExpr)
  | index (base place : CExpr)
  /-- A member of a structure, or of one that a pointer leads to. -/
  | member (base : CExpr) (name : String)
  | conditional (test yes no : CExpr)
  | assign (op : AssignOp) (target value : CExpr)
  | comma (first second : CExpr)

/-! ### Names and constants -/

def keywords : List String :=
  ["auto", "break", "case", "char", "const", "continue", "default", "do", "double", "else", "enum",
   "extern", "float", "for", "goto", "if", "inline", "int", "long", "register", "restrict",
   "return", "short", "signed", "sizeof", "static", "struct", "switch", "typedef", "union",
   "unsigned", "void", "volatile", "while", "_Alignas", "_Alignof", "_Atomic", "_Bool", "_Complex",
   "_Generic", "_Imaginary", "_Noreturn", "_Static_assert", "_Thread_local"]

def isKeyword (word : String) : Bool :=
  keywords.contains word

/-- An integer constant: octal behind a zero, else decimal. Hexadecimal ones and
ones with a suffix are not read. -/
def integer? (text : List Char) : Option Nat :=
  if text.head? = some '0' then
    if text.all fun c => (octalValue? c).isSome then some (Nat.ofDigitChars 8 text 0) else none
  else if text.all Char.isDigit && !text.isEmpty then some (Nat.ofDigitChars 10 text 0)
  else none

def cutAt (p : Char → Bool) : List Char → List Char × Option (List Char)
  | [] => ([], none)
  | c :: rest => if p c then ([], some rest) else (c :: (cutAt p rest).1, (cutAt p rest).2)

/-- What stands behind the letter of an exponent; none at all is zero. -/
def exponent? : Option (List Char) → Option Int
  | none => some 0
  | some text =>
    let digits := if text.head? = some '+' ∨ text.head? = some '-' then text.tail else text
    if digits.all Char.isDigit && !digits.isEmpty then
      let size : Int := Nat.ofDigitChars 10 digits 0
      some (if text.head? = some '-' then -size else size)
    else none

/-- A decimal floating constant without a suffix, rounded to the nearest double:
digits around a point and an exponent, of which one may be missing. -/
def floating? (text : List Char) : Option Double :=
  let (shown, exponent) := cutAt (fun c => c == 'e' || c == 'E') text
  let (whole, fraction) := cutAt (· == '.') shown
  let behind := fraction.getD []
  let digits := whole ++ behind
  if digits.all Char.isDigit && !digits.isEmpty && (fraction.isSome || exponent.isSome) then
    (exponent? exponent).map fun e =>
      .ofDecimal (Nat.ofDigitChars 10 digits 0) digits.length (e - behind.length)
  else none

def constant? (text : List Char) : Option CExpr :=
  match integer? text with
  | some value => some (.int value)
  | none => (floating? text).map .float

/-! ### Operators -/

/-- The operation of a punctuator between operands and its level, from the
loosest on. -/
def operator? : Mark → Option (Nat × BinaryOp)
  | .orOr => some (0, .or)
  | .andAnd => some (1, .and)
  | .pipe => some (2, .bitOr)
  | .caret => some (3, .bitXor)
  | .amp => some (4, .bitAnd)
  | .eqEq => some (5, .eq)
  | .bangEq => some (5, .ne)
  | .lt => some (6, .lt)
  | .le => some (6, .le)
  | .gt => some (6, .gt)
  | .ge => some (6, .ge)
  | .shl => some (7, .shl)
  | .shr => some (7, .shr)
  | .plus => some (8, .add)
  | .minus => some (8, .sub)
  | .star => some (9, .mul)
  | .slash => some (9, .div)
  | .percent => some (9, .rem)
  | _ => none

def levels : Nat := 10

def operatorAt? (level : Nat) (ts : List Lexeme) : Option BinaryOp :=
  match ts.head? with
  | some (.mark m) =>
    (operator? m).bind fun entry => if entry.1 = level then some entry.2 else none
  | _ => none

def unaryOp? : Mark → Option CUnary
  | .amp => some .addr
  | .star => some .deref
  | .plus => some .plus
  | .minus => some .minus
  | .tilde => some .compl
  | .bang => some .not
  | .plusPlus => some .increment
  | .minusMinus => some .decrement
  | _ => none

def assignOp? : Mark → Option AssignOp
  | .eq => some .assign
  | .plusEq => some .add
  | .minusEq => some .sub
  | .starEq => some .mul
  | .slashEq => some .div
  | .percentEq => some .rem
  | .ampEq => some .bitAnd
  | .pipeEq => some .bitOr
  | .caretEq => some .bitXor
  | .shlEq => some .shl
  | .shrEq => some .shr
  | _ => none

/-! ### Reading -/

/-- What is to be read next, with what was read of it before. -/
inductive Part where
  | expression
  /-- The commas behind an expression. -/
  | commas (first : CExpr)
  | assignment
  /-- An expression without assignments whose first operand is known. -/
  | conditional (first : CExpr)
  /-- Operations of a level and all tighter ones whose first operand is known. -/
  | operations (level : Nat) (first : CExpr)
  /-- The operations of a level behind a known left side. -/
  | chain (level : Nat) (lhs : CExpr)
  | unary
  /-- The string literals behind one, which belong to it. -/
  | strings (content : List UInt8)
  /-- What stands behind an operand and binds tightest. -/
  | links (operand : CExpr)
  | arguments (callee : CExpr) (done : List CExpr)

abbrev Reading := Part → List Lexeme → Option (CExpr × List Lexeme)

def behind (m : Mark) (next : List Lexeme → Option (CExpr × List Lexeme))
    (ts : List Lexeme) : Option (CExpr × List Lexeme) :=
  if ts.head? = some (.mark m) then next ts.tail else none

def memberName? (ts : List Lexeme) : Option String :=
  match ts.head? with
  | some (.word w) => if isKeyword w then none else some w
  | _ => none

section Step

variable (rec : Reading)

def assignmentStep (target : CExpr) (ts : List Lexeme) : Option (CExpr × List Lexeme) :=
  match ts.head? with
  | some (.mark m) =>
    match assignOp? m with
    | some op => (rec .assignment ts.tail).map fun r => (.assign op target r.1, r.2)
    | none => rec (.conditional target) ts
  | _ => rec (.conditional target) ts

def conditionalStep (test : CExpr) (ts : List Lexeme) : Option (CExpr × List Lexeme) :=
  if ts.head? = some (.mark .question) then
    (rec .expression ts.tail).bind fun yes =>
      behind .colon (fun ts => (rec .unary ts).bind fun first =>
        (rec (.conditional first.1) first.2).map fun no =>
          (.conditional test yes.1 no.1, no.2)) yes.2
  else some (test, ts)

def operandStep : List Lexeme → Option (CExpr × List Lexeme)
  | [] => none
  | .mark m :: rest =>
    match unaryOp? m with
    | some op => (rec .unary rest).map fun r => (.unary op r.1, r.2)
    | none =>
      if m = .lparen then
        (rec .expression rest).bind fun r => behind .rparen (rec (.links r.1)) r.2
      else none
  | .word w :: rest => if isKeyword w then none else rec (.links (.ident w)) rest
  | .number n :: rest => (constant? n).bind fun e => rec (.links e) rest
  | .char b :: rest => rec (.links (.char b)) rest
  | .string content :: rest => rec (.strings content) rest

def linksStep (e : CExpr) (ts : List Lexeme) : Option (CExpr × List Lexeme) :=
  match ts.head? with
  | some (.mark .lbracket) =>
    (rec .expression ts.tail).bind fun r => behind .rbracket (rec (.links (.index e r.1))) r.2
  | some (.mark .lparen) =>
    if ts.tail.head? = some (.mark .rparen) then rec (.links (.call e [])) ts.tail.tail
    else rec (.arguments e []) ts.tail
  | some (.mark .dot) =>
    (memberName? ts.tail).bind fun name => rec (.links (.member e name)) ts.tail.tail
  | some (.mark .arrow) =>
    (memberName? ts.tail).bind fun name => rec (.links (.member e name)) ts.tail.tail
  | some (.mark .plusPlus) => rec (.links (.stepped true e)) ts.tail
  | some (.mark .minusMinus) => rec (.links (.stepped false e)) ts.tail
  | _ => some (e, ts)

def step : Reading
  | .expression, ts => (rec .assignment ts).bind fun r => rec (.commas r.1) r.2
  | .commas e, ts =>
    if ts.head? = some (.mark .comma) then
      (rec .assignment ts.tail).bind fun r => rec (.commas (.comma e r.1)) r.2
    else some (e, ts)
  | .assignment, ts => (rec .unary ts).bind fun r => assignmentStep rec r.1 r.2
  | .conditional e, ts => (rec (.operations 0 e) ts).bind fun r => conditionalStep rec r.1 r.2
  | .operations level e, ts =>
    if level < levels then
      (rec (.operations (level + 1) e) ts).bind fun r => rec (.chain level r.1) r.2
    else some (e, ts)
  | .chain level l, ts =>
    match operatorAt? level ts with
    | some op =>
      (rec .unary ts.tail).bind fun u => (rec (.operations (level + 1) u.1) u.2).bind fun r =>
        rec (.chain level (.binary op l r.1)) r.2
    | none => some (l, ts)
  | .unary, ts => operandStep rec ts
  | .strings content, ts =>
    match ts.head? with
    | some (.string more) => rec (.strings (content ++ more)) ts.tail
    | _ => rec (.links (.str content)) ts
  | .links e, ts => linksStep rec e ts
  | .arguments f done, ts =>
    (rec .assignment ts).bind fun r =>
      if r.2.head? = some (.mark .comma) then rec (.arguments f (done ++ [r.1])) r.2.tail
      else behind .rparen (rec (.links (.call f (done ++ [r.1])))) r.2

end Step

/-- Reading with at most `n` steps inside one another. -/
def read : Nat → Reading
  | 0 => fun _ _ => none
  | n + 1 => step (read n)

/-- The tokens are read as the expression, and these are left. -/
def Reads (part : Part) (ts : List Lexeme) (r : CExpr × List Lexeme) : Prop :=
  ∃ n, read n part ts = some r

/-- The whole text is read as the expression. -/
def ReadsAs (text : String) (e : CExpr) : Prop :=
  ∃ ts, lexemes? text = some ts ∧ Reads .expression ts (e, [])

/-! ### More steps change nothing -/

def Covers (rec rec' : Reading) : Prop :=
  ∀ part ts r, rec part ts = some r → rec' part ts = some r

theorem bind_mono {α β : Type} {x x' : Option α} {f f' : α → Option β} {r : β}
    (hx : ∀ a, x = some a → x' = some a) (hf : ∀ a, f a = some r → f' a = some r)
    (h : x.bind f = some r) : x'.bind f' = some r := by
  obtain ⟨a, ha, hr⟩ := Option.bind_eq_some_iff.mp h
  rw [hx a ha]
  exact hf a hr

theorem map_mono {α β : Type} {x x' : Option α} {f : α → β} {r : β}
    (hx : ∀ a, x = some a → x' = some a) (h : x.map f = some r) : x'.map f = some r := by
  obtain ⟨a, ha, hr⟩ := Option.map_eq_some_iff.mp h
  rw [hx a ha, Option.map_some, hr]

theorem behind_mono {m : Mark} {next next' : List Lexeme → Option (CExpr × List Lexeme)}
    {ts : List Lexeme} {r : CExpr × List Lexeme}
    (hnext : ∀ ts, next ts = some r → next' ts = some r) (hr : behind m next ts = some r) :
    behind m next' ts = some r := by
  rw [behind] at hr ⊢
  split at hr
  · rw [if_pos ‹_›]
    exact hnext _ hr
  · cases hr

section Mono

variable {rec rec' : Reading} {e : CExpr} {ts : List Lexeme} {r : CExpr × List Lexeme}

theorem assignmentStep_mono (h : Covers rec rec') (hr : assignmentStep rec e ts = some r) :
    assignmentStep rec' e ts = some r := by
  rw [assignmentStep] at hr ⊢
  split at hr
  · split at hr
    · exact map_mono (h _ _) hr
    · exact h _ _ _ hr
  · exact h _ _ _ hr

theorem conditionalStep_mono (h : Covers rec rec') (hr : conditionalStep rec e ts = some r) :
    conditionalStep rec' e ts = some r := by
  rw [conditionalStep] at hr ⊢
  split at hr
  · rw [if_pos ‹_›]
    apply bind_mono (h _ _) _ hr
    intro yes hyes
    apply behind_mono _ hyes
    intro ts hno
    exact bind_mono (h _ _) (fun first => map_mono (h _ _)) hno
  · rw [if_neg ‹_›]
    exact hr

theorem operandStep_mono (h : Covers rec rec') (hr : operandStep rec ts = some r) :
    operandStep rec' ts = some r := by
  cases ts with
  | nil => cases hr
  | cons l ts =>
    cases l with
    | mark m =>
      rw [operandStep] at hr ⊢
      split at hr
      · exact map_mono (h _ _) hr
      · split at hr
        · rw [if_pos ‹_›]
          exact bind_mono (h _ _) (fun a => behind_mono fun ts => h _ ts _) hr
        · cases hr
    | word w =>
      rw [operandStep] at hr ⊢
      split at hr
      · cases hr
      · rw [if_neg ‹_›]
        exact h _ _ _ hr
    | number n => exact bind_mono (fun _ h => h) (fun e => h _ _ _) hr
    | char b => exact h _ _ _ hr
    | string content => exact h _ _ _ hr

theorem linksStep_mono (h : Covers rec rec') (hr : linksStep rec e ts = some r) :
    linksStep rec' e ts = some r := by
  rw [linksStep] at hr ⊢
  split at hr
  · exact bind_mono (h _ _) (fun a => behind_mono fun ts => h _ ts _) hr
  · split at hr
    · rw [if_pos ‹_›]
      exact h _ _ _ hr
    · rw [if_neg ‹_›]
      exact h _ _ _ hr
  · exact bind_mono (fun _ h => h) (fun name => h _ _ _) hr
  · exact bind_mono (fun _ h => h) (fun name => h _ _ _) hr
  · exact h _ _ _ hr
  · exact h _ _ _ hr
  · exact hr

/-- A step reads no less if its parts are read in more ways. -/
theorem step_mono (h : Covers rec rec') : Covers (step rec) (step rec') := by
  intro part ts r hr
  cases part with
  | expression => exact bind_mono (h _ _) (fun a => h _ _ _) hr
  | commas e =>
    rw [step] at hr ⊢
    split at hr
    · rw [if_pos ‹_›]
      exact bind_mono (h _ _) (fun a => h _ _ _) hr
    · rw [if_neg ‹_›]
      exact hr
  | assignment => exact bind_mono (h _ _) (fun a => assignmentStep_mono h) hr
  | conditional e => exact bind_mono (h _ _) (fun a => conditionalStep_mono h) hr
  | operations level e =>
    rw [step] at hr ⊢
    split at hr
    · rw [if_pos ‹_›]
      exact bind_mono (h _ _) (fun a => h _ _ _) hr
    · rw [if_neg ‹_›]
      exact hr
  | chain level l =>
    rw [step] at hr ⊢
    split at hr
    · exact bind_mono (h _ _) (fun u => bind_mono (h _ _) fun a => h _ _ _) hr
    · exact hr
  | unary => exact operandStep_mono h hr
  | strings content =>
    rw [step] at hr ⊢
    split at hr
    · exact h _ _ _ hr
    · exact h _ _ _ hr
  | links e => exact linksStep_mono h hr
  | arguments f done =>
    apply bind_mono (h _ _) _ hr
    intro a ha
    split at ha
    · rw [if_pos ‹_›]
      exact h _ _ _ ha
    · rw [if_neg ‹_›]
      exact behind_mono (fun ts => h _ ts _) ha

end Mono

theorem read_mono {n m : Nat} (hle : n ≤ m) : Covers (read n) (read m) := by
  induction n generalizing m with
  | zero => intro part ts r hr; cases hr
  | succ n ih =>
    cases m with
    | zero => omega
    | succ m => exact step_mono (ih (Nat.le_of_succ_le_succ hle))

/-- There is only one way to read tokens. -/
theorem Reads.unique {part : Part} {ts : List Lexeme} {r r' : CExpr × List Lexeme}
    (h : Reads part ts r) (h' : Reads part ts r') : r = r' := by
  obtain ⟨n, hn⟩ := h
  obtain ⟨m, hm⟩ := h'
  have hleft := read_mono (Nat.le_max_left n m) _ _ _ hn
  have hright := read_mono (Nat.le_max_right n m) _ _ _ hm
  rw [hleft] at hright
  exact Option.some.inj hright

/-- There is only one way to read a text. -/
theorem ReadsAs.unique {text : String} {e e' : CExpr} (h : ReadsAs text e) (h' : ReadsAs text e') :
    e = e' := by
  obtain ⟨ts, hts, hreads⟩ := h
  obtain ⟨ts', hts', hreads'⟩ := h'
  rw [hts] at hts'
  cases hts'
  exact congrArg Prod.fst (hreads.unique hreads')

/-! ### What is read -/

section

variable {part part' : Part} {ts ts' rest : List Lexeme} {r r' : CExpr × List Lexeme}
  {e u lhs rhs : CExpr} {op : BinaryOp} {level : Nat}

theorem Reads.both (h : Reads part ts r) (h' : Reads part' ts' r') :
    ∃ n, read n part ts = some r ∧ read n part' ts' = some r' := by
  obtain ⟨n, hn⟩ := h
  obtain ⟨m, hm⟩ := h'
  exact ⟨max n m, read_mono (Nat.le_max_left n m) _ _ _ hn,
    read_mono (Nat.le_max_right n m) _ _ _ hm⟩

theorem reads_expression (h : Reads .assignment ts (e, rest))
    (hrest : rest.head? ≠ some (.mark .comma)) : Reads .expression ts (e, rest) := by
  obtain ⟨n, hn⟩ := h
  have hcommas : read (n + 1) (.commas e) rest = some (e, rest) := by
    rw [read, step, if_neg hrest]
  have hassignment := read_mono (Nat.le_succ n) _ _ _ hn
  exact ⟨n + 2, by rw [read, step, hassignment, Option.bind_some, hcommas]⟩

theorem reads_assignment (h : Reads .unary ts (u, ts')) (hnext : Reads (.conditional u) ts' r)
    (hop : ∀ m, ts'.head? = some (.mark m) → assignOp? m = none) : Reads .assignment ts r := by
  obtain ⟨n, hn, hm⟩ := h.both hnext
  refine ⟨n + 1, ?_⟩
  rw [read, step, hn, Option.bind_some, assignmentStep]
  split
  · rw [hop _ ‹_›]
    exact hm
  · exact hm

theorem reads_conditional (h : Reads (.operations 0 u) ts (e, rest))
    (hrest : rest.head? ≠ some (.mark .question)) : Reads (.conditional u) ts (e, rest) := by
  obtain ⟨n, hn⟩ := h
  exact ⟨n + 1, by rw [read, step, hn, Option.bind_some, conditionalStep, if_neg hrest]⟩

theorem reads_operations (hlevel : level < levels)
    (h : Reads (.operations (level + 1) u) ts (e, ts')) (hchain : Reads (.chain level e) ts' r) :
    Reads (.operations level u) ts r := by
  obtain ⟨n, hn, hm⟩ := h.both hchain
  exact ⟨n + 1, by rw [read, step, if_pos hlevel, hn, Option.bind_some, hm]⟩

theorem reads_chain (hop : operatorAt? level ts = some op) (hu : Reads .unary ts.tail (u, ts'))
    (hrhs : Reads (.operations (level + 1) u) ts' (rhs, rest))
    (hnext : Reads (.chain level (.binary op lhs rhs)) rest r) :
    Reads (.chain level lhs) ts r := by
  obtain ⟨n, hn⟩ := hu
  obtain ⟨m, hm, hm'⟩ := hrhs.both hnext
  have hn := read_mono (Nat.le_max_left n m) _ _ _ hn
  have hm := read_mono (Nat.le_max_right n m) _ _ _ hm
  have hm' := read_mono (Nat.le_max_right n m) _ _ _ hm'
  refine ⟨max n m + 1, ?_⟩
  rw [read, step, hop]
  simp only [hn, hm, hm', Option.bind_some]

theorem reads_chain_end (h : operatorAt? level ts = none) : Reads (.chain level e) ts (e, ts) :=
  ⟨1, by rw [read, step, h]⟩

/-- An operand stands alone if no operation of its level or a tighter one follows. -/
theorem reads_operations_alone (level : Nat) (h : ∀ l, level ≤ l → operatorAt? l ts = none) :
    Reads (.operations level u) ts (u, ts) := by
  by_cases hlevel : level < levels
  · have hinner : Reads (.operations (level + 1) u) ts (u, ts) :=
      reads_operations_alone (level + 1) fun l hl => h l (Nat.le_of_succ_le hl)
    exact reads_operations hlevel hinner (reads_chain_end (h level (Nat.le_refl _)))
  · exact ⟨1, by rw [read, step, if_neg hlevel]⟩
termination_by levels - level

/-- Nothing or a token that ends every expression before it. -/
inductive Closing : List Lexeme → Prop
  | nothing : Closing []
  | rparen (rest : List Lexeme) : Closing (.mark .rparen :: rest)
  | rbracket (rest : List Lexeme) : Closing (.mark .rbracket :: rest)
  | comma (rest : List Lexeme) : Closing (.mark .comma :: rest)

theorem Closing.no_operator (h : Closing ts) (level : Nat) : operatorAt? level ts = none := by
  cases h <;> rfl

theorem Closing.reads_conditional (h : Closing rest) : Reads (.conditional u) rest (u, rest) := by
  have halone : Reads (.operations 0 u) rest (u, rest) :=
    reads_operations_alone 0 fun level _ => h.no_operator level
  apply CSyntax.reads_conditional halone
  cases h <;> simp

/-- An operand with nothing behind it is a whole expression. -/
theorem reads_operand (h : Reads .unary ts (u, rest)) (hrest : Closing rest) :
    Reads .assignment ts (u, rest) := by
  apply reads_assignment h hrest.reads_conditional
  intro m hm
  cases hrest <;> cases hm <;> rfl

/-- An operation with nothing behind it, from its own level down to any looser one. -/
theorem reads_operation_at {m : Mark} {own : Nat} (hm : operator? m = some (own, op))
    (hown : own < levels) (h : Reads .unary ts (rhs, rest)) (hrest : Closing rest) (level : Nat)
    (hlevel : level ≤ own) :
    Reads (.operations level lhs) (.mark m :: ts) (.binary op lhs rhs, rest) := by
  have hat (l : Nat) : operatorAt? l (.mark m :: ts) = if own = l then some op else none := by
    simp [operatorAt?, hm]
  rcases Nat.lt_or_eq_of_le hlevel with hlt | rfl
  · have hinner := reads_operation_at hm hown h hrest (level + 1) hlt
    exact reads_operations (by omega) hinner (reads_chain_end (hrest.no_operator level))
  · have hleft : Reads (.operations (level + 1) lhs) (.mark m :: ts) (lhs, .mark m :: ts) :=
      reads_operations_alone _ fun l hl => by rw [hat, if_neg (by omega)]
    have hright : Reads (.operations (level + 1) rhs) rest (rhs, rest) :=
      reads_operations_alone _ fun l _ => hrest.no_operator l
    have hend : Reads (.chain level (.binary op lhs rhs)) rest (.binary op lhs rhs, rest) :=
      reads_chain_end (hrest.no_operator level)
    have hop : operatorAt? level (.mark m :: ts) = some op := by rw [hat, if_pos rfl]
    exact reads_operations hown hleft (reads_chain hop h hright hend)
termination_by own - level

/-- An operation on two operands with nothing behind it is a whole expression. -/
theorem reads_operation {m : Mark} {own : Nat} (hm : operator? m = some (own, op))
    (hown : own < levels) (hassign : assignOp? m = none)
    (hlhs : Reads .unary ts (lhs, .mark m :: ts'))
    (hrhs : Reads .unary ts' (rhs, rest)) (hrest : Closing rest) :
    Reads .assignment ts (.binary op lhs rhs, rest) := by
  have hat : Reads (.operations 0 lhs) (.mark m :: ts') (.binary op lhs rhs, rest) :=
    reads_operation_at hm hown hrhs hrest 0 (Nat.zero_le own)
  apply reads_assignment hlhs (reads_conditional hat _)
  · intro m' hm'
    cases hm'
    exact hassign
  · cases hrest <;> simp

/-! Operands and what stands behind them. -/

/-- The token at the front continues no operand. -/
def Detached (ts : List Lexeme) : Prop :=
  ∀ m, ts.head? = some (.mark m) →
    m ∉ [Mark.lbracket, .lparen, .dot, .arrow, .plusPlus, .minusMinus]

/-- A postfix chain ends in front of a token that continues none. -/
theorem reads_links_end (h : Detached ts) : Reads (.links e) ts (e, ts) := by
  refine ⟨1, ?_⟩
  rw [read, step, linksStep]
  split
  · exact absurd (h _ ‹_›) (by decide)
  · exact absurd (h _ ‹_›) (by decide)
  · exact absurd (h _ ‹_›) (by decide)
  · exact absurd (h _ ‹_›) (by decide)
  · exact absurd (h _ ‹_›) (by decide)
  · exact absurd (h _ ‹_›) (by decide)
  · rfl

theorem reads_word {w : String} (hw : isKeyword w = false) (h : Reads (.links (.ident w)) ts r) :
    Reads .unary (.word w :: ts) r := by
  obtain ⟨n, hn⟩ := h
  exact ⟨n + 1, by rw [read, step, operandStep, hw]; exact hn⟩

theorem reads_number {text : List Char} (hconst : constant? text = some e)
    (h : Reads (.links e) ts r) : Reads .unary (.number text :: ts) r := by
  obtain ⟨n, hn⟩ := h
  exact ⟨n + 1, by rw [read, step, operandStep, hconst]; exact hn⟩

theorem reads_char {b : UInt8} (h : Reads (.links (.char b)) ts r) :
    Reads .unary (.char b :: ts) r := by
  obtain ⟨n, hn⟩ := h
  exact ⟨n + 1, hn⟩

theorem reads_string {content : List UInt8} (hnext : ∀ more, ts.head? ≠ some (.string more))
    (h : Reads (.links (.str content)) ts r) : Reads .unary (.string content :: ts) r := by
  obtain ⟨n, hn⟩ := h
  have hstrings : read (n + 1) (.strings content) ts = some r := by
    rw [read, step]
    split
    · exact absurd ‹_› (hnext _)
    · exact hn
  exact ⟨n + 2, hstrings⟩

theorem reads_paren (h : Reads .expression ts (e, .mark .rparen :: rest))
    (hlinks : Reads (.links e) rest r) : Reads .unary (.mark .lparen :: ts) r := by
  obtain ⟨n, hn, hm⟩ := h.both hlinks
  refine ⟨n + 1, ?_⟩
  rw [read, step, operandStep]
  simp only [unaryOp?, if_true, hn, Option.bind_some]
  exact hm

theorem reads_unary {m : Mark} {op : CUnary} (hm : unaryOp? m = some op)
    (h : Reads .unary ts (e, rest)) : Reads .unary (.mark m :: ts) (.unary op e, rest) := by
  obtain ⟨n, hn⟩ := h
  refine ⟨n + 1, ?_⟩
  rw [read, step, operandStep]
  simp only [hm, hn, Option.map_some]

theorem reads_index (h : Reads .expression ts (u, .mark .rbracket :: rest))
    (hlinks : Reads (.links (.index e u)) rest r) :
    Reads (.links e) (.mark .lbracket :: ts) r := by
  obtain ⟨n, hn, hm⟩ := h.both hlinks
  refine ⟨n + 1, ?_⟩
  rw [read, step, linksStep]
  simp only [List.head?_cons, List.tail_cons, hn, Option.bind_some]
  exact hm

theorem reads_member {m : Mark} (hm : m = .dot ∨ m = .arrow) {w : String}
    (hw : isKeyword w = false) (hlinks : Reads (.links (.member e w)) ts r) :
    Reads (.links e) (.mark m :: .word w :: ts) r := by
  obtain ⟨n, hn⟩ := hlinks
  refine ⟨n + 1, ?_⟩
  rw [read, step, linksStep]
  rcases hm with rfl | rfl
  · simpa [memberName?, hw] using hn
  · simpa [memberName?, hw] using hn

theorem reads_call_empty (hlinks : Reads (.links (.call e [])) ts r) :
    Reads (.links e) (.mark .lparen :: .mark .rparen :: ts) r := by
  obtain ⟨n, hn⟩ := hlinks
  exact ⟨n + 1, hn⟩

/-- No argument starts with a closing parenthesis. -/
theorem reads_arguments_head {done : List CExpr} (h : Reads (.arguments e done) ts r) :
    ts.head? ≠ some (.mark .rparen) := by
  intro hhead
  obtain ⟨rest, rfl⟩ := List.head?_eq_some_iff.mp hhead
  have hunary (n : Nat) : read n .unary (.mark .rparen :: rest) = none := by cases n <;> rfl
  have hassignment (n : Nat) : read n .assignment (.mark .rparen :: rest) = none := by
    cases n with
    | zero => rfl
    | succ n => rw [read, step, hunary, Option.bind_none]
  obtain ⟨n, hn⟩ := h
  cases n with
  | zero => cases hn
  | succ n =>
    rw [read, step, hassignment] at hn
    cases hn

theorem reads_call (h : Reads (.arguments e []) ts r) :
    Reads (.links e) (.mark .lparen :: ts) r := by
  have hfirst := reads_arguments_head h
  obtain ⟨n, hn⟩ := h
  exact ⟨n + 1, (if_neg hfirst).trans hn⟩

theorem reads_argument {done : List CExpr} (h : Reads .assignment ts (u, .mark .comma :: ts'))
    (hnext : Reads (.arguments e (done ++ [u])) ts' r) : Reads (.arguments e done) ts r := by
  obtain ⟨n, hn, hm⟩ := h.both hnext
  exact ⟨n + 1, by rw [read, step, hn]; exact hm⟩

theorem reads_last_argument {done : List CExpr}
    (h : Reads .assignment ts (u, .mark .rparen :: rest))
    (hlinks : Reads (.links (.call e (done ++ [u]))) rest r) : Reads (.arguments e done) ts r := by
  obtain ⟨n, hn, hm⟩ := h.both hlinks
  exact ⟨n + 1, by rw [read, step, hn]; exact hm⟩

end

end StagedCompiler.CSyntax
