import StagedCompiler.Proofs.CSyntax.ExprSpelling
import StagedCompiler.Proofs.CSyntax.NumberText

/-!
Generated expressions mean what they were generated from: C reads the text of
an expression as the same tree.
-/

namespace StagedCompiler.CSyntax

open Target (Scope expr condition calleeName)

/-! ### Which trees, and what they become -/

def isName (name : String) : Bool :=
  isWord name.toList && !isKeyword name

def isNumeric : Tree → Bool
  | .node (.int _) _ | .node (.float _) _ | .node (.bool _) _ => true
  | _ => false

/-- What a node has to be, apart from its children. A number is no base of a
field, because a point behind it would be taken as its own. -/
def isFaithfulKind : NodeKind String Tree → Bool
  | .ident name => isName name
  | .int value => decide (0 ≤ value)
  | .float value => value.isFinite && !value.isNegative
  | .str text => trigraphFree text.toList
  | .char _ | .bool _ | .binary .. | .unary .. | .call .. | .index .. => true
  | .fieldAccess base name => isName name && !isNumeric base
  | _ => false

/-- Expressions whose text C reads as the same tree. -/
def isFaithful : Tree → Bool :=
  Tree.fold fun kind _ children => children.all id && isFaithfulKind kind

theorem isFaithful_node (kind : NodeKind String Tree) (span : Span) :
    isFaithful (.node kind span) = true ↔
      (∀ t ∈ kind.children, isFaithful t = true) ∧ isFaithfulKind kind = true := by
  rw [isFaithful, Tree.fold_node, Bool.and_eq_true, List.all_map, List.all_eq_true]
  rfl

def unaryImage : UnaryOp → CUnary
  | .not => .not
  | .neg => .minus
  | .deref => .deref
  | .ref | .refMut => .addr

/-- The tree of an expression in C. Truth values are one and zero, both kinds of
reference take an address, and functions of the support library are called by
their C names. -/
def image : Tree → CExpr :=
  Tree.fold fun kind _ images =>
    match kind, images with
    | .ident name, _ => .ident name
    | .int value, _ => .int value.toNat
    | .float value, _ => .float value
    | .str text, _ => .str (Text.bytes text)
    | .char value, _ => .char value
    | .bool value, _ => .int (if value then 1 else 0)
    | .binary op _ _, [lhs, rhs] => .binary op lhs rhs
    | .unary op _, [operand] => .unary (unaryImage op) operand
    | .call (.node (.ident name) _) _, _ :: args => .call (.ident (calleeName name)) args
    | .call _ _, callee :: args => .call callee args
    | .index _ _, [base, place] => .index base place
    | .fieldAccess _ name, [base] => .member base name
    | _, _ => .int 0

/-! ### Operands -/

def lexemesOf (text : String) : List Lexeme :=
  (lexemes? text).getD []

theorem lexemesOf_eq {text : String} {ts : List Lexeme} {more : List Char}
    (h : Shown text.toList ts more) : lexemesOf text = ts := by
  rw [lexemesOf, h.spells.lexemes?_eq, Option.getD_some]

/-- The text is read as an operand, whatever stands behind it. -/
structure Operand (text : String) (e : CExpr) (more : List Char) : Prop where
  shown : Shown text.toList (lexemesOf text) more
  reads (rest : List Lexeme) (r : CExpr × List Lexeme)
    (hrest : ∀ content, rest.head? ≠ some (.string content)) (h : Reads (.links e) rest r) :
    Reads .unary (lexemesOf text ++ rest) r

theorem Operand.of_shown {text : String} {chars : List Char} {ts : List Lexeme} {e : CExpr}
    {more : List Char} (hshown : Shown chars ts more) (htext : text.toList = chars)
    (hreads : ∀ rest r, (∀ content, rest.head? ≠ some (.string content)) →
      Reads (.links e) rest r → Reads .unary (ts ++ rest) r) : Operand text e more := by
  rw [← htext] at hshown
  have hts := lexemesOf_eq hshown
  constructor
  · rw [hts]
    exact hshown
  · rw [hts]
    exact hreads

section

variable {text lhsText rhsText : String} {e lhs rhs : CExpr} {more lhsMore rhsMore : List Char}

theorem operand_name {name : String} (h : isName name = true) :
    Operand name (.ident name) fieldMarks := by
  rw [isName, Bool.and_eq_true, Bool.not_eq_true'] at h
  exact .of_shown (.name h.1) rfl fun _ _ _ hlinks => reads_word h.2 hlinks

theorem operand_number (hquiet : Quiet text.toList) (hnumber : isNumber text.toList = true)
    (h : constant? text.toList = some e) : Operand text e [] :=
  .of_shown (.number hquiet hnumber) rfl fun _ _ _ hlinks => reads_number h hlinks

theorem operand_string {content : String} (h : trigraphFree content.toList = true) :
    Operand (Target.Literal.string content) (.str (Text.bytes content)) fieldMarks :=
  .of_shown (.string h) rfl fun _ _ hrest hlinks => reads_string hrest hlinks

theorem operand_char (value : UInt8) :
    Operand (Target.Literal.char value) (.char value) fieldMarks :=
  .of_shown (.char value) rfl fun _ _ _ hlinks => reads_char hlinks

/-- An operand up to a token that no operand goes on with. -/
theorem Operand.reads_up_to (h : Operand text e more) {rest : List Lexeme}
    (hstring : ∀ content, rest.head? ≠ some (.string content)) (hrest : Detached rest) :
    Reads .unary (lexemesOf text ++ rest) (e, rest) :=
  h.reads rest _ hstring (reads_links_end hrest)

theorem Closing.no_string {rest : List Lexeme} (h : Closing rest) (content : List UInt8) :
    rest.head? ≠ some (.string content) := by
  cases h <;> simp

theorem Closing.detached {rest : List Lexeme} (h : Closing rest) : Detached rest := by
  intro m hm
  cases h <;> cases hm <;> decide

/-- An operand up to a closing token is a whole expression. -/
theorem Operand.reads_assignment (h : Operand text e more) {rest : List Lexeme}
    (hrest : Closing rest) : Reads .assignment (lexemesOf text ++ rest) (e, rest) :=
  reads_operand (h.reads_up_to hrest.no_string hrest.detached) hrest

theorem operator?_binaryMark (op : BinaryOp) :
    ∃ level < levels, operator? (binaryMark op) = some (level, op) := by
  cases op <;> exact ⟨_, by decide, rfl⟩

/-- Two operands with an operator between them, up to a closing token. -/
theorem Operand.reads_operation (hlhs : Operand lhsText lhs lhsMore)
    (hrhs : Operand rhsText rhs rhsMore) (op : BinaryOp) {rest : List Lexeme}
    (hrest : Closing rest) :
    Reads .assignment (lexemesOf lhsText ++ .mark (binaryMark op) :: (lexemesOf rhsText ++ rest))
      (.binary op lhs rhs, rest) := by
  obtain ⟨level, hlevel, hop⟩ := operator?_binaryMark op
  have hassign : assignOp? (binaryMark op) = none := by cases op <;> rfl
  have hdetached : Detached (.mark (binaryMark op) :: (lexemesOf rhsText ++ rest)) := by
    intro m hm
    cases hm
    cases op <;> decide
  have hleft := hlhs.reads_up_to (by simp) hdetached
  have hright := hrhs.reads_up_to hrest.no_string hrest.detached
  exact CSyntax.reads_operation hop hlevel hassign hleft hright hrest

theorem operand_binary (hlhs : Operand lhsText lhs lhsMore) (hrhs : Operand rhsText rhs rhsMore)
    (op : BinaryOp) :
    Operand ("(" ++ lhsText ++ " " ++ op.text ++ " " ++ rhsText ++ ")") (.binary op lhs rhs)
      fieldMarks := by
  apply Operand.of_shown (hlhs.shown.binary hrhs.shown op) (by simp)
  intro rest r _ hlinks
  have hinner := reads_expression (hlhs.reads_operation hrhs op (.rparen rest)) (by simp)
  simpa using reads_paren hinner hlinks

theorem unaryOp?_unaryMark (op : UnaryOp) : unaryOp? (unaryMark op) = some (unaryImage op) := by
  cases op <;> rfl

theorem operand_unary (h : Operand text e more) (op : UnaryOp) :
    Operand ("(" ++ op.text ++ text ++ ")") (.unary (unaryImage op) e) fieldMarks := by
  apply Operand.of_shown (h.shown.unary op) (by simp)
  intro rest r _ hlinks
  have hclose : Closing (.mark .rparen :: rest) := .rparen rest
  have hoperand := h.reads_up_to hclose.no_string hclose.detached
  have hunary := reads_operand (reads_unary (unaryOp?_unaryMark op) hoperand) hclose
  simpa using reads_paren (reads_expression hunary (by simp)) hlinks

theorem operand_index (hbase : Operand lhsText lhs lhsMore) (hplace : Operand rhsText rhs rhsMore) :
    Operand (lhsText ++ "[" ++ rhsText ++ "]") (.index lhs rhs) fieldMarks := by
  apply Operand.of_shown (hbase.shown.index hplace.shown) (by simp)
  intro rest r _ hlinks
  have hplace := reads_expression (hplace.reads_assignment (.rbracket rest)) (by simp)
  simpa using hbase.reads _ _ (by simp) (reads_index hplace hlinks)

theorem operand_member (hbase : Operand text e fieldMarks) {name : String}
    (hname : isName name = true) (throughPtr : Bool) :
    Operand (text ++ (if throughPtr then "->" else ".") ++ name) (.member e name) fieldMarks := by
  rw [isName, Bool.and_eq_true, Bool.not_eq_true'] at hname
  apply Operand.of_shown (hbase.shown.member hname.1 throughPtr) (by simp)
  intro rest r _ hlinks
  have hmark : (if throughPtr then Mark.arrow else .dot) = .dot ∨
      (if throughPtr then Mark.arrow else .dot) = .arrow := by
    cases throughPtr <;> simp
  simpa using hbase.reads _ _ (by simp) (reads_member hmark hname.2 hlinks)

/-- Arguments with commas between them, behind those that are `done`. -/
theorem reads_arguments {α : Type} {f : α → String} {g : α → CExpr} {m : α → List Char}
    (x : α) (xs : List α) (h : ∀ y ∈ x :: xs, Operand (f y) (g y) (m y)) {callee : CExpr}
    (done : List CExpr) {rest : List Lexeme} {r : CExpr × List Lexeme}
    (hlinks : Reads (.links (.call callee (done ++ (x :: xs).map g))) rest r) :
    Reads (.arguments callee done)
      ([Lexeme.mark .comma].intercalate ((x :: xs).map fun y => lexemesOf (f y)) ++
        .mark .rparen :: rest) r := by
  induction xs generalizing x done with
  | nil =>
    have hx := (h x (by simp)).reads_assignment (.rparen rest)
    rw [List.map_singleton, List.intercalate_singleton]
    exact reads_last_argument hx hlinks
  | cons y ys ih =>
    have hrest := ih y (fun z hz => h z (List.mem_cons_of_mem _ hz)) (done ++ [g x])
      (by simpa using hlinks)
    simp only [List.map_cons, List.intercalate_cons_cons, List.append_assoc] at hrest ⊢
    exact reads_argument ((h x (by simp)).reads_assignment (.comma _)) hrest

theorem operand_call {α : Type} {f : α → String} {g : α → CExpr} {m : α → List Char}
    (hcallee : Operand text e more) (args : List α) (h : ∀ y ∈ args, Operand (f y) (g y) (m y)) :
    Operand (text ++ "(" ++ ", ".intercalate (args.map f) ++ ")") (.call e (args.map g))
      fieldMarks := by
  have hargs : Listed (", ".intercalate (args.map f)).toList _ :=
    listed_separated fun y hy => ⟨(h y hy).shown.spells_before, (h y hy).shown.starts_any⟩
  apply Operand.of_shown (hcallee.shown.call hargs) (by simp)
  intro rest r _ hlinks
  cases args with
  | nil => simpa using hcallee.reads _ _ (by simp) (reads_call_empty hlinks)
  | cons x xs =>
    have harguments := reads_arguments x xs h [] hlinks
    simpa using hcallee.reads _ _ (by simp) (reads_call harguments)

end

/-! ### Whole expressions -/

/-- What may follow besides the usual: a field of anything but a number. -/
def marksBehind (t : Tree) : List Char :=
  if isNumeric t then [] else fieldMarks

theorem toList_toString_ofNat (n : Nat) : (toString (n : Int)).toList = Nat.toDigits 10 n := by
  have hnat : toString (n : Int) = toString n := rfl
  rw [hnat, Nat.toString_eq_ofList_toDigits, String.toList_ofList]

theorem isNumber_toDigits (n : Nat) :
    Quiet (Nat.toDigits 10 n) ∧ isNumber (Nat.toDigits 10 n) = true := by
  have hall := all_isDigit_toDigits n
  constructor
  · apply quiet_of_number
    exact fun c hc => .inl (isWordPart_of_isDigit (List.all_eq_true.mp hall c hc))
  · exact isNumber_of_digits (toDigits_ne_nil n) hall

theorem operand_int {value : Int} (h : 0 ≤ value) :
    Operand (toString value) (.int value.toNat) [] := by
  obtain ⟨n, rfl⟩ := Int.eq_ofNat_of_zero_le h
  have hnumber := isNumber_toDigits n
  rw [← toList_toString_ofNat] at hnumber
  apply operand_number hnumber.1 hnumber.2
  rw [toList_toString_ofNat, constant?_toDigits]
  rfl

theorem operand_float {value : Double} (hfinite : value.isFinite = true)
    (hsign : value.isNegative = false) :
    Operand (Target.Literal.floatLayout.render value) (.float value) [] := by
  have hreads := readsFloat_render hsign hfinite
  exact operand_number hreads.quiet hreads.number hreads.constant

theorem operand_bool (value : Bool) :
    Operand (if value then "1" else "0") (.int (if value then 1 else 0)) [] := by
  cases value with
  | true => exact operand_int (by decide : (0 : Int) ≤ 1)
  | false => exact operand_int (by decide : (0 : Int) ≤ 0)

theorem isName_calleeName {name : String} (h : isName name = true) :
    isName (calleeName name) = true := by
  rw [calleeName]
  cases hfind : Target.Builtin.find? name with
  | none => exact h
  | some b =>
    have hall : ∀ b ∈ Target.Builtin.all, isName b.cName = true := by decide
    exact hall b (List.mem_of_find?_eq_some hfind)

def calleeImage : Tree → CExpr
  | .node (.ident name) _ => .ident (calleeName name)
  | callee => image callee

theorem image_call (callee : Tree) (args : List Tree) (span : Span) :
    image (.node (.call callee args) span) = .call (calleeImage callee) (args.map image) := by
  obtain ⟨kind, place⟩ := callee
  rw [image, Tree.fold_node]
  cases kind <;> rfl

/-- What is called is an operand as well, under its C name. -/
theorem operand_callee {s : Scope} {callee : Tree} (h : isFaithful callee = true)
    (hcallee : Operand (expr s false callee) (image callee) (marksBehind callee)) :
    ∃ more, Operand (Target.calleeText s callee) (calleeImage callee) more := by
  obtain ⟨kind, span⟩ := callee
  cases kind with
  | ident name =>
    rw [isFaithful_node] at h
    exact ⟨_, operand_name (isName_calleeName h.2)⟩
  | _ => exact ⟨_, hcallee⟩

/-- The text of an expression is an operand that is read as the same tree. -/
theorem operand_expr (s : Scope) (t : Tree) (h : isFaithful t = true) :
    Operand (expr s false t) (image t) (marksBehind t) := by
  induction t using Tree.induction with
  | step kind span ih =>
    obtain ⟨hchildren, hkind⟩ := (isFaithful_node kind span).mp h
    have hchild (t : Tree) (ht : t ∈ kind.children) :
        Operand (expr s false t) (image t) (marksBehind t) := ih t ht (hchildren t ht)
    cases kind with
    | ident name => exact operand_name hkind
    | int value => exact operand_int (of_decide_eq_true hkind)
    | float value =>
      rw [isFaithfulKind, Bool.and_eq_true, Bool.not_eq_true'] at hkind
      rw [expr, if_pos hkind.1]
      exact operand_float hkind.1 hkind.2
    | str text => exact operand_string hkind
    | char value => exact operand_char value
    | bool value => exact operand_bool value
    | binary op lhs rhs =>
      have hlhs := hchild lhs (by simp [NodeKind.children])
      have hrhs := hchild rhs (by simp [NodeKind.children])
      rw [expr]
      exact operand_binary hlhs hrhs op
    | unary op operand =>
      rw [expr]
      exact operand_unary (hchild operand (by simp [NodeKind.children])) op
    | call callee args =>
      have hfaithful := hchildren callee (by simp [NodeKind.children])
      have hoperand := hchild callee (by simp [NodeKind.children])
      obtain ⟨more, hcallee⟩ := operand_callee hfaithful hoperand
      rw [Target.expr_call, image_call]
      exact operand_call hcallee args fun t ht => hchild t (by simp [NodeKind.children, ht])
    | index base place =>
      have hbase := hchild base (by simp [NodeKind.children])
      have hplace := hchild place (by simp [NodeKind.children])
      rw [expr]
      exact operand_index hbase hplace
    | fieldAccess base name =>
      rw [isFaithfulKind, Bool.and_eq_true, Bool.not_eq_true'] at hkind
      have hbase := hchild base (by simp [NodeKind.children])
      rw [marksBehind, hkind.2] at hbase
      rw [expr]
      exact operand_member hbase hkind.1 _
    | _ => cases hkind

theorem Operand.readsAs {text : String} {e : CExpr} {more : List Char} (h : Operand text e more) :
    ReadsAs text e := by
  have hreads := reads_expression (h.reads_assignment .nothing) (by simp)
  rw [List.append_nil] at hreads
  exact ⟨lexemesOf text, h.shown.spells.lexemes?_eq, hreads⟩

/-- A condition is read as the same tree, though an operation stands there
without its parentheses. -/
theorem readsAs_condition (s : Scope) {t : Tree} (h : isFaithful t = true) :
    ReadsAs (condition s t) (image t) := by
  obtain ⟨kind, span⟩ := t
  cases kind with
  | binary op lhs rhs =>
    obtain ⟨hchildren, -⟩ := (isFaithful_node _ span).mp h
    have hlhs := operand_expr s lhs (hchildren lhs (by simp [NodeKind.children]))
    have hrhs := operand_expr s rhs (hchildren rhs (by simp [NodeKind.children]))
    have hspells : Spells (condition s (.node (.binary op lhs rhs) span)).toList
        (lexemesOf (expr s false lhs) ++ .mark (binaryMark op) :: lexemesOf (expr s false rhs))
        (· ∈ followers) := by
      simpa [condition] using hlhs.shown.operation hrhs.shown op
    have hreads := reads_expression (hlhs.reads_operation hrhs op .nothing) (by simp)
    rw [List.append_nil] at hreads
    exact ⟨_, hspells.lexemes?_eq, hreads⟩
  | _ => exact (operand_expr s _ h).readsAs

/-- Generated expressions and conditions mean the trees they come from: C reads
their texts as those trees and as no other ones. -/
theorem expressions_read_back (s : Scope) {t : Tree} (h : isFaithful t = true) (e : CExpr) :
    (ReadsAs (expr s false t) e ↔ e = image t) ∧ (ReadsAs (condition s t) e ↔ e = image t) := by
  have hexpr := (operand_expr s t h).readsAs
  have hcondition := readsAs_condition s h
  constructor
  · constructor
    · exact fun hreads => hreads.unique hexpr
    · rintro rfl
      exact hexpr
  · constructor
    · exact fun hreads => hreads.unique hcondition
    · rintro rfl
      exact hcondition

def sampleCall : Tree :=
  .node (.call (.node (.ident "print") {})
    [.node (.binary .sub (.node (.ident "a") {})
      (.node (.unary .neg (.node (.float ⟨0x3FF8000000000000⟩) {})) {})) {},
     .node (.binary .bitAnd (.node (.str "\\?\"") {})
      (.node (.unary .refMut (.node (.fieldAccess (.node (.ident "p") {}) "f") {})) {})) {},
     .node (.binary .div (.node (.char 39) {})
      (.node (.unary .deref
        (.node (.index (.node (.ident "q") {}) (.node (.int 7) {})) {})) {})) {}])
    {}

theorem expressions_read_back_call :
    isFaithful sampleCall = true ∧
      ∀ s : Scope, ReadsAs (expr s false sampleCall)
        (.call (.ident "__pd_print")
          [.binary .sub (.ident "a") (.unary .minus (.float ⟨0x3FF8000000000000⟩)),
           .binary .bitAnd (.str [92, 63, 34]) (.unary .addr (.member (.ident "p") "f")),
           .binary .div (.char 39) (.unary .deref (.index (.ident "q") (.int 7)))]) := by
  have hfaithful : isFaithful sampleCall = true := by decide +kernel
  refine ⟨hfaithful, fun s => ?_⟩
  have hread := (expressions_read_back s hfaithful (image sampleCall)).1.mpr rfl
  exact hread

/-- Neither a field of a truth value nor a negative number can be read back: the
point belongs to the one before it, and the sign is an operation. -/
theorem expressions_misread :
    (¬∃ s : Scope, ReadsAs (expr s false (.node (.fieldAccess (.node (.bool true) {}) "e1") {}))
        (.member (.int 1) "e1")) ∧
      ¬∃ s : Scope, ReadsAs (expr s false (.node (.float ⟨0xBFF8000000000000⟩) {}))
        (.float ⟨0xBFF8000000000000⟩) := by
  have hconstant {text : List Char} {x : Double} (hinteger : integer? text = none)
      (hfloating : floating? text = some x) : constant? text = some (.float x) := by
    rw [constant?, hinteger, hfloating, Option.map_some]
  constructor
  · rintro ⟨s, h⟩
    have hten : Operand "1.e1" (.float ⟨0x4024000000000000⟩) [] :=
      operand_number (quiet_of_plain (by decide)) (by decide)
        (hconstant (by decide) (by decide +kernel))
    cases h.unique hten.readsAs
  · rintro ⟨s, h⟩
    have htext : expr s false (.node (.float ⟨0xBFF8000000000000⟩) {}) = "-1.5" := by
      have hrender : Target.Literal.floatLayout.render ⟨0xBFF8000000000000⟩ = "-1.5" := by
        decide +kernel
      rw [expr, if_pos (by decide), hrender]
    have hhalf : Reads .unary [.number "1.5".toList] (.float ⟨0x3FF8000000000000⟩, []) :=
      reads_number (hconstant (by decide) (by decide +kernel))
        (reads_links_end (by simp [Detached]))
    have hminus := reads_operand (reads_unary (rfl : unaryOp? .minus = _) hhalf) .nothing
    have hreads : ReadsAs "-1.5" (.unary .minus (.float ⟨0x3FF8000000000000⟩)) :=
      ⟨_, by decide, reads_expression hminus (by simp)⟩
    rw [htext] at h
    cases h.unique hreads

end StagedCompiler.CSyntax
