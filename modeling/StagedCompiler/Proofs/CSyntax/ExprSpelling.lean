import StagedCompiler.Proofs.CSyntax.Spelling
import StagedCompiler.Target.Expr

/-!
The tokens of generated expressions, form by form. An expression starts with a
character that no punctuator goes on with, and ends where one of a few
characters follows it, so its parts never run into one another.
-/

namespace StagedCompiler.CSyntax

open Target (Scope expr)

theorem Starts.append {text : List Char} {p : Char → Prop} (h : Starts text p) (more : List Char) :
    Starts (text ++ more) p := by
  obtain ⟨c, rest, rfl, hc⟩ := h
  exact ⟨c, rest ++ more, rfl, hc⟩

theorem Starts.mono {text : List Char} {p q : Char → Prop} (h : Starts text p)
    (hpq : ∀ c, p c → q c) : Starts text q := by
  obtain ⟨c, rest, rfl, hc⟩ := h
  exact ⟨c, rest, rfl, hpq c hc⟩

theorem starts_cons {c : Char} {p : Char → Prop} (h : p c) (rest : List Char) :
    Starts (c :: rest) p :=
  ⟨c, rest, rfl, h⟩

def followers : List Char :=
  [' ', ')', ']', '(', '[', ',', ';', '\x7d']

/-- The beginnings of what takes a field, which follow anything but a number. -/
def fieldMarks : List Char :=
  ['.', '-']

/-- Nothing, or a text that is cut into these tokens in front of the usual
characters: what may stand between brackets. -/
def Listed (text : List Char) (lexemes : List Lexeme) : Prop :=
  text = [] ∧ lexemes = [] ∨ Spells text lexemes (· ∈ followers) ∧ Starts text AnyNext

theorem Listed.enclosed {text : List Char} {ts : List Lexeme} (h : Listed text ts)
    (left right : Char × Mark) (hleft : left ∈ Mark.singles) (hright : right ∈ Mark.singles)
    (hfollows : right.1 ∈ followers) :
    Spells ([left.1] ++ (text ++ [right.1])) (.mark left.2 :: (ts ++ [Lexeme.mark right.2]))
      AnyNext := by
  have hopen := spells_single _ _ hleft
  have hclose := spells_single _ _ hright
  rcases h with ⟨rfl, rfl⟩ | ⟨hspells, hstarts⟩
  · exact hopen.append hclose (starts_cons trivial _)
  · exact hopen.append (hspells.append hclose (starts_cons hfollows _)) (hstarts.append _)

section

variable {α : Type} {f : α → String} {g : α → List Lexeme}

/-- Texts with commas between them. -/
theorem spells_separated (x : α) (xs : List α)
    (h : ∀ y ∈ x :: xs, Spells (f y).toList (g y) (· ∈ followers) ∧ Starts (f y).toList AnyNext) :
    Spells (", ".intercalate ((x :: xs).map f)).toList
        ([Lexeme.mark .comma].intercalate ((x :: xs).map g)) (· ∈ followers) ∧
      Starts (", ".intercalate ((x :: xs).map f)).toList AnyNext := by
  obtain ⟨hspells, hstarts⟩ := h x (by simp)
  induction xs generalizing x with
  | nil =>
    rw [List.map_singleton, List.map_singleton, String.intercalate_singleton,
      List.intercalate_singleton]
    exact ⟨hspells, hstarts⟩
  | cons y ys ih =>
    have hrest (z : α) (hz : z ∈ y :: ys) := h z (List.mem_cons_of_mem _ hz)
    obtain ⟨hspells', hstarts'⟩ := ih y hrest (hrest y (by simp)).1 (hrest y (by simp)).2
    have hcomma := (spells_single ',' .comma (by decide)).append spells_blank
      (starts_cons trivial [])
    simp only [List.map_cons, String.intercalate_cons_cons, List.intercalate_cons_cons,
      String.toList_append, List.append_assoc] at hspells' hstarts' ⊢
    constructor
    · exact hspells.append (hcomma.append hspells' hstarts') (starts_cons (by decide) _)
    · exact hstarts.append _

theorem listed_separated {xs : List α}
    (h : ∀ y ∈ xs, Spells (f y).toList (g y) (· ∈ followers) ∧ Starts (f y).toList AnyNext) :
    Listed (", ".intercalate (xs.map f)).toList ([Lexeme.mark .comma].intercalate (xs.map g)) := by
  cases xs with
  | nil => exact .inl ⟨rfl, rfl⟩
  | cons x xs => exact .inr (spells_separated x xs h)

end

/-- The text is an expression that is cut into these tokens, in front of the
usual characters and some more. -/
structure Shown (text : List Char) (lexemes : List Lexeme) (more : List Char) : Prop where
  spells : Spells text lexemes (· ∈ more ++ followers)
  starts : Starts text (opens · = true)

theorem isWord_starts {word : List Char} (h : isWord word = true) :
    Starts word (isWordStart · = true) := by
  cases word with
  | nil => cases h
  | cons c rest =>
    rw [isWord, Bool.and_eq_true] at h
    exact starts_cons h.1 rest

namespace Shown

variable {text lhs rhs : List Char} {ts lhsTs rhsTs : List Lexeme}
  {more lhsMore rhsMore : List Char}

theorem spells_before (h : Shown text ts more) : Spells text ts (· ∈ followers) :=
  h.spells.mono fun _ hc => List.mem_append_right more hc

theorem starts_any (h : Shown text ts more) : Starts text AnyNext :=
  h.starts.mono fun _ _ => trivial

theorem listed (h : Shown text ts more) : Listed text ts :=
  .inr ⟨h.spells_before, h.starts_any⟩

/-- An expression in front of something that starts with a usual character. -/
theorem append {text' : List Char} {ts' : List Lexeme} {next : Char → Prop}
    (h : Shown text ts more) (h' : Spells text' ts' next) (hstart : Starts text' (· ∈ followers)) :
    Spells (text ++ text') (ts ++ ts') next :=
  h.spells_before.append h' hstart

theorem name {name : String} (h : isWord name.toList = true) :
    Shown name.toList [.word name] fieldMarks where
  spells := (spells_word h).mono (List.all_eq_true.mp (by decide))
  starts := (isWord_starts h).mono fun c hc => by simp [opens, hc]

theorem number {number : List Char} (hquiet : Quiet number) (h : isNumber number = true) :
    Shown number [.number number] [] where
  spells := (spells_number hquiet h).mono (List.all_eq_true.mp (by decide))
  starts := by
    cases number with
    | nil => cases h
    | cons c rest =>
      rw [isNumber, Bool.and_eq_true] at h
      exact starts_cons (by simp [opens, h.1]) rest

theorem string {text : String} (h : trigraphFree text.toList = true) :
    Shown (Target.Literal.string text).toList [.string (Text.bytes text)] fieldMarks where
  spells := (spells_string h).mono fun _ _ => trivial
  starts := by
    rw [Target.Literal.string, String.toList_append, String.toList_append]
    exact starts_cons (by decide) _

theorem char (value : UInt8) :
    Shown (Target.Literal.char value).toList [.char value] fieldMarks where
  spells := (spells_char value).mono fun _ _ => trivial
  starts := by
    rw [Target.Literal.char, String.toList_append, String.toList_append]
    exact starts_cons (by decide) _

theorem paren (h : Listed text ts) :
    Shown (['('] ++ (text ++ [')'])) (.mark .lparen :: (ts ++ [Lexeme.mark .rparen]))
      fieldMarks where
  spells := by
    have hboth := h.enclosed ('(', .lparen) (')', .rparen) (by decide) (by decide) (by decide)
    exact hboth.mono fun _ _ => trivial
  starts := starts_cons (by decide) _

/-- Operations between operands stand between blanks. -/
theorem operation (hlhs : Shown lhs lhsTs lhsMore) (hrhs : Shown rhs rhsTs rhsMore)
    (op : BinaryOp) :
    Spells (lhs ++ ([' '] ++ (op.text.toList ++ ([' '] ++ rhs))))
      (lhsTs ++ (.mark (binaryMark op) :: rhsTs)) (· ∈ followers) := by
  have hblank : Spells ([' '] ++ rhs) rhsTs (· ∈ followers) :=
    spells_blank.append hrhs.spells_before hrhs.starts_any
  have hop : Spells (op.text.toList ++ ([' '] ++ rhs)) (.mark (binaryMark op) :: rhsTs)
      (· ∈ followers) :=
    (spells_binary op).append hblank (starts_cons (by decide) _)
  have hstart : Starts (op.text.toList ++ ([' '] ++ rhs)) AnyNext := by
    apply Starts.append
    cases op <;> exact starts_cons trivial _
  exact hlhs.append (spells_blank.append hop hstart) (starts_cons (by decide) _)

theorem binary (hlhs : Shown lhs lhsTs lhsMore) (hrhs : Shown rhs rhsTs rhsMore) (op : BinaryOp) :
    Shown (['('] ++ ((lhs ++ ([' '] ++ (op.text.toList ++ ([' '] ++ rhs)))) ++ [')']))
      (.mark .lparen :: ((lhsTs ++ (.mark (binaryMark op) :: rhsTs)) ++ [Lexeme.mark .rparen]))
      fieldMarks :=
  paren (.inr ⟨hlhs.operation hrhs op, hlhs.starts_any.append _⟩)

theorem unary (h : Shown text ts more) (op : UnaryOp) :
    Shown (['('] ++ ((op.text.toList ++ text) ++ [')']))
      (.mark .lparen :: ((.mark (unaryMark op) :: ts) ++ [Lexeme.mark .rparen])) fieldMarks := by
  apply paren
  refine .inr ⟨(spells_unary op).append h.spells_before h.starts, ?_⟩
  apply Starts.append
  cases op <;> exact starts_cons trivial _

theorem index (hbase : Shown lhs lhsTs lhsMore) (hplace : Shown rhs rhsTs rhsMore) :
    Shown (lhs ++ (['['] ++ (rhs ++ [']'])))
      (lhsTs ++ (.mark .lbracket :: (rhsTs ++ [Lexeme.mark .rbracket]))) fieldMarks where
  spells := by
    have hplace := hplace.listed.enclosed ('[', .lbracket) (']', .rbracket) (by decide) (by decide)
      (by decide)
    exact (hbase.append hplace (starts_cons (by decide) _)).mono fun _ _ => trivial
  starts := hbase.starts.append _

theorem call (hcallee : Shown lhs lhsTs lhsMore) (hargs : Listed rhs rhsTs) :
    Shown (lhs ++ (['('] ++ (rhs ++ [')'])))
      (lhsTs ++ (.mark .lparen :: (rhsTs ++ [Lexeme.mark .rparen]))) fieldMarks where
  spells := by
    have hargs := (paren hargs).spells
    exact hcallee.append hargs (starts_cons (by decide) _)
  starts := hcallee.starts.append _

theorem member (hbase : Shown text ts fieldMarks) {name : String}
    (hname : isWord name.toList = true) (throughPtr : Bool) :
    Shown (text ++ ((if throughPtr then "->" else ".").toList ++ name.toList))
      (ts ++ [Lexeme.mark (if throughPtr then .arrow else .dot), .word name]) fieldMarks where
  spells := by
    have hword := Shown.name hname
    cases throughPtr with
    | true =>
      have hfield := spells_arrow.append hword.spells hword.starts_any
      exact hbase.spells.append hfield (starts_cons (by decide) _)
    | false =>
      have hfield := spells_dot.append hword.spells (isWord_starts hname)
      exact hbase.spells.append hfield (starts_cons (by decide) _)
  starts := hbase.starts.append _

end Shown

end StagedCompiler.CSyntax
