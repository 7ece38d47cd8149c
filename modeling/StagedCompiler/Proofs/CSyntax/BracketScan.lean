import StagedCompiler.Proofs.Number.NumeralChars
import StagedCompiler.Target.Literal

/-!
Scanning C text from left to right: what is open at each place. Inside a string
or character literal only its end, a backslash and the end of the line count.
Everywhere else the scanner keeps the brackets that wait for their partner, and
it stops at a bracket that has none and at a comment. `Moves` says how a text
changes what is open; texts put together move one after the other.
-/

namespace StagedCompiler.CScan

inductive Region where
  | code
  /-- Behind a slash, which may start a comment. -/
  | slash
  | literal (quote : Char)
  /-- Behind a backslash in a literal. -/
  | escape (quote : Char)
deriving DecidableEq

structure Scanner where
  region : Region := .code
  waiting : List Char := []
deriving DecidableEq

inductive Mark where
  | opens (closer : Char)
  | closes
  | quotes
  | slash
  | plain
deriving DecidableEq

def mark : Char → Mark
  | '(' => .opens ')'
  | '[' => .opens ']'
  | '\x7b' => .opens '\x7d'
  | ')' | ']' | '\x7d' => .closes
  | '"' | '\'' => .quotes
  | '/' => .slash
  | _ => .plain

namespace Scanner

/-- A character outside of literals. A closing bracket has to be the one that is
waited for. -/
def code (waiting : List Char) (c : Char) : Option Scanner :=
  match mark c with
  | .opens closer => some ⟨.code, closer :: waiting⟩
  | .closes =>
    match waiting with
    | [] => none
    | closer :: waiting => if c = closer then some ⟨.code, waiting⟩ else none
  | .quotes => some ⟨.literal c, waiting⟩
  | .slash => some ⟨.slash, waiting⟩
  | .plain => some ⟨.code, waiting⟩

/-- One character. No comment is opened, and no line ends inside a literal. -/
def step (s : Scanner) (c : Char) : Option Scanner :=
  match s.region with
  | .code => code s.waiting c
  | .slash => if c = '/' ∨ c = '*' then none else code s.waiting c
  | .literal quote =>
    if c = '\n' then none
    else if c = '\\' then some ⟨.escape quote, s.waiting⟩
    else if c = quote then some ⟨.code, s.waiting⟩
    else some ⟨.literal quote, s.waiting⟩
  | .escape quote => if c = '\n' then none else some ⟨.literal quote, s.waiting⟩

def scan (s : Scanner) (text : List Char) : Option Scanner :=
  text.foldlM step s

end Scanner

/-- Every literal is closed on its own line, brackets outside of literals are
balanced and nested, and no comment is opened. -/
def Closed (text : String) : Prop :=
  Scanner.scan {} text.toList = some {}

instance (text : String) : Decidable (Closed text) :=
  inferInstanceAs (Decidable (_ = _))

example : Closed "f(\"\x7d\", '\\'')[a / b];\n" := by decide

example : ¬ Closed "f(\"\n\")" ∧ ¬ Closed "(]" ∧ ¬ Closed "a //b" ∧ ¬ Closed "a(" := by decide

/-- The text takes a scanner outside of literals from one list of awaited
brackets to another, and leaves it outside of literals. -/
def Moves (text : String) (before after : List Char) : Prop :=
  Scanner.scan ⟨.code, before⟩ text.toList = some ⟨.code, after⟩

instance (text : String) (before after : List Char) : Decidable (Moves text before after) :=
  inferInstanceAs (Decidable (_ = _))

def Balanced (text : String) : Prop :=
  Moves text [] []

instance (text : String) : Decidable (Balanced text) :=
  inferInstanceAs (Decidable (Moves ..))

namespace Scanner

variable {s s' s'' : Scanner} {waiting : List Char}

theorem scan_append {text more : List Char} (h : s.scan text = some s') :
    s.scan (text ++ more) = s'.scan more := by
  unfold scan at h ⊢
  rw [List.foldlM_append, h]
  rfl

/-- Brackets that are waited for further out are not looked at. -/
theorem code_frame {c : Char} (h : code waiting c = some s') (more : List Char) :
    code (waiting ++ more) c = some ⟨s'.region, s'.waiting ++ more⟩ := by
  unfold code at h ⊢
  cases hmark : mark c with
  | closes =>
    rw [hmark] at h
    cases waiting with
    | nil => cases h
    | cons closer waiting =>
      dsimp only [List.cons_append] at h ⊢
      split at h
      · next hc =>
        cases h
        rw [if_pos hc]
      · cases h
  | _ =>
    rw [hmark] at h
    cases h
    rfl

/-- What is awaited further out does not matter for a step. -/
theorem step_frame {c : Char} (h : s.step c = some s') (more : List Char) :
    step ⟨s.region, s.waiting ++ more⟩ c = some ⟨s'.region, s'.waiting ++ more⟩ := by
  unfold step at h ⊢
  cases hregion : s.region with
  | code =>
    rw [hregion] at h
    exact code_frame h more
  | slash =>
    simp only [hregion] at h ⊢
    split at h
    · cases h
    · next hcomment =>
      rw [if_neg hcomment]
      exact code_frame h more
  | literal quote | escape quote =>
    simp only [hregion] at h ⊢
    grind

/-- What is awaited further out does not matter for a scan. -/
theorem scan_frame {text : List Char} (h : s.scan text = some s') (more : List Char) :
    scan ⟨s.region, s.waiting ++ more⟩ text = some ⟨s'.region, s'.waiting ++ more⟩ := by
  unfold scan at h ⊢
  induction text generalizing s with
  | nil =>
    cases h
    rfl
  | cons c text ih =>
    rw [List.foldlM_cons] at h ⊢
    obtain ⟨next, hnext, hrest⟩ := Option.bind_eq_some_iff.mp h
    rw [step_frame hnext more]
    exact ih hrest

end Scanner

section

variable {text more : String} {before middle after : List Char}

theorem Moves.append (h : Moves text before middle) (h' : Moves more middle after) :
    Moves (text ++ more) before after := by
  unfold Moves at h h' ⊢
  rw [String.toList_append, Scanner.scan_append h]
  exact h'

theorem Moves.frame (h : Moves text before after) (rest : List Char) :
    Moves text (before ++ rest) (after ++ rest) :=
  Scanner.scan_frame h rest

theorem moves_empty (waiting : List Char) : Moves "" waiting waiting :=
  rfl

theorem Balanced.moves (h : Balanced text) (waiting : List Char) : Moves text waiting waiting :=
  Moves.frame h waiting

theorem Balanced.append (h : Balanced text) (h' : Balanced more) : Balanced (text ++ more) :=
  Moves.append h h'

theorem Balanced.closed (h : Balanced text) : Closed text :=
  h

/-- A balanced text between a text that opens something and one that closes it. -/
theorem Balanced.between {first last : String} {waiting : List Char} (h : Balanced text)
    (hfirst : Moves first [] waiting) (hlast : Moves last waiting []) :
    Balanced (first ++ text ++ last) :=
  (hfirst.append (h.moves waiting)).append hlast

/-- The same behind a balanced text. -/
theorem Balanced.bracketed {front first last : String} {waiting : List Char}
    (hfront : Balanced front) (h : Balanced text) (hfirst : Moves first [] waiting)
    (hlast : Moves last waiting []) : Balanced (front ++ first ++ text ++ last) :=
  ((Moves.append hfront hfirst).append (h.moves waiting)).append hlast

theorem balanced_join {parts : List String} (h : ∀ part ∈ parts, Balanced part) :
    Balanced (String.join parts) := by
  induction parts with
  | nil => exact moves_empty []
  | cons part parts ih =>
    rw [String.join_cons]
    exact (h part (by simp)).append (ih fun part hpart => h part (by simp [hpart]))

theorem balanced_intercalate {mark : String} {parts : List String} (hmark : Balanced mark)
    (h : ∀ part ∈ parts, Balanced part) : Balanced (mark.intercalate parts) := by
  induction parts with
  | nil => exact moves_empty []
  | cons part parts ih =>
    have hpart := h part (by simp)
    cases parts with
    | nil => simpa using hpart
    | cons next parts =>
      rw [String.intercalate_cons_cons]
      exact (hpart.append hmark).append (ih fun part hpart => h part (by simp [hpart]))

end

/-! ### Texts without brackets -/

def Bare (text : String) : Prop :=
  ∀ c ∈ text.toList, mark c = .plain

instance (text : String) : Decidable (Bare text) :=
  List.decidableBAll _ text.toList

theorem bare_append {text more : String} : Bare (text ++ more) ↔ Bare text ∧ Bare more := by
  simp [Bare, or_imp, forall_and]

theorem Bare.balanced {text : String} (h : Bare text) : Balanced text := by
  unfold Bare at h
  unfold Balanced Moves Scanner.scan
  generalize text.toList = chars at h
  induction chars with
  | nil => rfl
  | cons c chars ih =>
    have hstep : Scanner.step ⟨.code, []⟩ c = some ⟨.code, []⟩ := by
      simp [Scanner.step, Scanner.code, h c (by simp)]
    rw [List.foldlM_cons, hstep]
    exact ih fun c hc => h c (by simp [hc])

def marked : List Char :=
  ['(', '[', '\x7b', ')', ']', '\x7d', '"', '\'', '/']

theorem mem_marked {c : Char} (h : mark c ≠ .plain) : c ∈ marked := by
  unfold mark at h
  split at h <;> simp_all [marked]

/-- Texts of a class of characters none of which is marked. -/
theorem bare_of_class {p : Char → Bool} (hp : marked.any p = false) {text : String}
    (h : ∀ c ∈ text.toList, p c = true) : Bare text := by
  intro c hc
  refine Decidable.byContradiction fun hmark => ?_
  exact List.any_eq_false.mp hp c (mem_marked hmark) (h c hc)

theorem bare_of_numeric {text : String} (h : Decimal.Numeric text) : Bare text :=
  bare_of_class (by decide) h

/-! ### Literals -/

/-- A byte inside quotes leaves the scanner inside them. -/
theorem scan_escape (b : UInt8) (waiting : List Char) :
    Scanner.scan ⟨.literal '"', waiting⟩ (Target.Literal.escape 34 b) =
        some ⟨.literal '"', waiting⟩ ∧
      Scanner.scan ⟨.literal '\'', waiting⟩ (Target.Literal.escape 39 b) =
        some ⟨.literal '\'', waiting⟩ := by
  have hall : ∀ n : Fin 256,
      Scanner.scan ⟨.literal '"', []⟩ (Target.Literal.escape 34 (.ofNat n)) =
          some ⟨.literal '"', []⟩ ∧
        Scanner.scan ⟨.literal '\'', []⟩ (Target.Literal.escape 39 (.ofNat n)) =
          some ⟨.literal '\'', []⟩ := by
    decide +kernel
  have hb := hall ⟨b.toNat, b.toNat_lt⟩
  rw [UInt8.ofNat_toNat] at hb
  exact ⟨Scanner.scan_frame hb.1 waiting, Scanner.scan_frame hb.2 waiting⟩

theorem scan_escapes (bytes : List UInt8) (waiting : List Char) :
    Scanner.scan ⟨.literal '"', waiting⟩ (bytes.flatMap (Target.Literal.escape 34)) =
      some ⟨.literal '"', waiting⟩ := by
  induction bytes with
  | nil => rfl
  | cons b bytes ih => rw [List.flatMap_cons, Scanner.scan_append (scan_escape b waiting).1, ih]

theorem balanced_string (text : String) : Balanced (Target.Literal.string text) := by
  have hopen : Scanner.scan {} ['"'] = some ⟨.literal '"', []⟩ := rfl
  have hclose : Scanner.scan ⟨.literal '"', []⟩ ['"'] = some {} := rfl
  have htext : (Target.Literal.string text).toList =
      ['"'] ++ ((Text.bytes text).flatMap (Target.Literal.escape 34) ++ ['"']) := by
    simp [Target.Literal.string]
  rw [Balanced, Moves, htext, Scanner.scan_append hopen, Scanner.scan_append (scan_escapes _ []),
    hclose]

theorem balanced_char (value : UInt8) : Balanced (Target.Literal.char value) := by
  have hopen : Scanner.scan {} ['\''] = some ⟨.literal '\'', []⟩ := rfl
  have hclose : Scanner.scan ⟨.literal '\'', []⟩ ['\''] = some {} := rfl
  have htext : (Target.Literal.char value).toList =
      ['\''] ++ (Target.Literal.escape 39 value ++ ['\'']) := by
    simp [Target.Literal.char]
  rw [Balanced, Moves, htext, Scanner.scan_append hopen,
    Scanner.scan_append (scan_escape value []).2, hclose]

end StagedCompiler.CScan
