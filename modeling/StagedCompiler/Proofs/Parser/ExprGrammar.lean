import StagedCompiler.Ast
import StagedCompiler.Parser.Expr

/-!
The grammar of expressions, as derivations of trees from token lists. There
are eleven levels of infix operators, all of which group to the left; below
them come prefix operators, then chains of postfix operations, then primaries.
The flag `inHeader` is set in the headers of control statements, where no
struct literal stands outside brackets. The grammar is stated on its own;
`infixSign_iff` says that the table of the reader has its levels.
-/

namespace StagedCompiler.Grammar

inductive CommaSeparated {α : Type} (Element : List Token → α → Prop) :
    List Token → List α → Prop where
  | nil : CommaSeparated Element [] []
  | last {ts : List Token} {a : α} : Element ts a → CommaSeparated Element ts [a]
  | more {ts us : List Token} {comma : Token} {a : α} {as : List α} :
      Element ts a → comma.kind = .punct .comma → CommaSeparated Element us as →
      CommaSeparated Element (ts ++ comma :: us) (a :: as)

theorem CommaSeparated.mono {α : Type} {P P' : List Token → α → Prop} {ts : List Token}
    {xs : List α} (h : CommaSeparated P ts xs) (hP : ∀ ts x, P ts x → P' ts x) :
    CommaSeparated P' ts xs := by
  induction h with
  | nil => exact .nil
  | last helem => exact .last (hP _ _ helem)
  | more helem hcomma _ ih => exact .more (hP _ _ helem) hcomma ih

inductive FieldValue (names : Interner) (Value : List Token → Tree → Prop) :
    List Token → FieldInit String Tree → Prop where
  | intro {name colon : Token} {sym : Symbol} {ts : List Token} {t : Tree} :
      name.kind = .ident sym → colon.kind = .punct .colon → Value ts t →
      FieldValue names Value (name :: colon :: ts)
        ⟨names.resolve sym, t, name.span.to t.span⟩

inductive Literal (names : Interner) : TokenKind → NodeKind String Tree → Prop where
  | int (value : Int) : Literal names (.int value) (.int value)
  | float (value : Double) : Literal names (.float value) (.float value)
  | str (sym : Symbol) : Literal names (.str sym) (.str (names.resolve sym))
  | char (value : UInt8) : Literal names (.char value) (.char value)
  | true : Literal names (.keyword .trueKw) (.bool true)
  | false : Literal names (.keyword .falseKw) (.bool false)

theorem Literal.literal? {names : Interner} {kind : TokenKind} {tree : NodeKind String Tree}
    (h : Literal names kind tree) : ∃ node, kind.literal? = some node ∧
      ∀ lookup : NodeId → Tree, node.map names.resolve lookup = tree := by
  cases h with
  | int _ | float _ | str _ | char _ | true | false => exact ⟨_, rfl, fun _ => rfl⟩

theorem Literal.of_literal? {names : Interner} {kind : TokenKind} {node : NodeKind Symbol NodeId}
    (h : kind.literal? = some node) (lookup : NodeId → Tree) :
    Literal names kind (node.map names.resolve lookup) := by
  cases TokenKind.isLiteral h with
  | @bool word v hvalue =>
    unfold Keyword.truth? at hvalue
    split at hvalue <;> cases hvalue <;> constructor
  | int _ | float _ | str _ | char _ => constructor

inductive Prefix : List TokenKind → UnaryOp → Prop where
  | not : Prefix [.punct .bang] .not
  | neg : Prefix [.punct .minus] .neg
  | deref : Prefix [.punct .star] .deref
  | ref : Prefix [.punct .amp] .ref
  | refMut : Prefix [.punct .amp, .keyword .mutKw] .refMut

/-- The infix operators and their levels. -/
inductive InfixSign : Nat → TokenKind → InfixOp → Prop where
  | range : InfixSign 1 (.punct .dotDot) (.range false)
  | rangeTo : InfixSign 1 (.punct .dotDotEq) (.range true)
  | or : InfixSign 2 (.punct .orOr) (.binary .or)
  | and : InfixSign 3 (.punct .andAnd) (.binary .and)
  | bitOr : InfixSign 4 (.punct .pipe) (.binary .bitOr)
  | bitXor : InfixSign 5 (.punct .caret) (.binary .bitXor)
  | bitAnd : InfixSign 6 (.punct .amp) (.binary .bitAnd)
  | eq : InfixSign 7 (.punct .eqEq) (.binary .eq)
  | ne : InfixSign 7 (.punct .bangEq) (.binary .ne)
  | lt : InfixSign 8 (.punct .lt) (.binary .lt)
  | le : InfixSign 8 (.punct .le) (.binary .le)
  | gt : InfixSign 8 (.punct .gt) (.binary .gt)
  | ge : InfixSign 8 (.punct .ge) (.binary .ge)
  | shl : InfixSign 9 (.punct .shl) (.binary .shl)
  | shr : InfixSign 9 (.punct .shr) (.binary .shr)
  | add : InfixSign 10 (.punct .plus) (.binary .add)
  | sub : InfixSign 10 (.punct .minus) (.binary .sub)
  | mul : InfixSign 11 (.punct .star) (.binary .mul)
  | div : InfixSign 11 (.punct .slash) (.binary .div)
  | rem : InfixSign 11 (.punct .percent) (.binary .rem)

theorem infixSign_iff {level : Nat} {kind : TokenKind} {op : InfixOp} :
    InfixSign level kind op ↔ kind.infixOp? = some (level, op) := by
  constructor
  · intro h
    cases h <;> rfl
  · intro h
    cases kind with
    | punct mark => cases mark <;> cases h <;> constructor
    | _ => cases h

mutual

/-- Expressions of an infix level: one is the loosest, eleven the tightest,
and level twelve has operands only. -/
inductive Infix (names : Interner) : Bool → Nat → List Token → Tree → Prop where
  | operand {inHeader : Bool} {ts : List Token} {t : Tree} :
      Operand names inHeader ts t → Infix names inHeader 12 ts t
  | tighter {inHeader : Bool} {level : Nat} {ts : List Token} {t : Tree} :
      1 ≤ level → level ≤ 11 → Infix names inHeader (level + 1) ts t →
      Infix names inHeader level ts t
  | join {inHeader : Bool} {level : Nat} {ls rs : List Token} {sign : Token} {op : InfixOp}
      {lhs rhs : Tree} :
      InfixSign level sign.kind op → Infix names inHeader level ls lhs →
      Infix names inHeader (level + 1) rs rhs →
      Infix names inHeader level (ls ++ sign :: rs)
        (.node (op.node lhs rhs) (lhs.span.to rhs.span))

inductive Operand (names : Interner) : Bool → List Token → Tree → Prop where
  | bare {inHeader : Bool} {ts : List Token} {t : Tree} :
      Postfixed names inHeader ts t → Operand names inHeader ts t
  | sign {inHeader : Bool} {first : Token} {more ts : List Token} {op : UnaryOp} {t : Tree} :
      Prefix (first.kind :: more.map (·.kind)) op → Operand names inHeader ts t →
      Operand names inHeader (first :: (more ++ ts)) (.node (.unary op t) (first.span.to t.span))
  /-- Two ampersands in one token; the inner reference starts behind them. -/
  | refRef {inHeader : Bool} {both next : Token} {ts : List Token} {t inner : Tree} :
      both.kind = .punct .andAnd → Operand names inHeader (next :: ts) t →
      inner = .node (.unary .ref t) (next.span.to t.span) →
      Operand names inHeader (both :: next :: ts)
        (.node (.unary .ref inner) (both.span.to inner.span))

inductive Postfixed (names : Interner) : Bool → List Token → Tree → Prop where
  | primary {inHeader : Bool} {ts : List Token} {t : Tree} :
      Primary names inHeader ts t → Postfixed names inHeader ts t
  | call {inHeader : Bool} {fs as : List Token} {opening closing : Token} {f : Tree}
      {args : List Tree} :
      Postfixed names inHeader fs f → opening.kind = .punct .lparen →
      CommaSeparated (Infix names false 1) as args → closing.kind = .punct .rparen →
      Postfixed names inHeader (fs ++ opening :: (as ++ [closing]))
        (.node (.call f args) (f.span.to closing.span))
  | index {inHeader : Bool} {bs is : List Token} {opening closing : Token} {base i : Tree} :
      Postfixed names inHeader bs base → opening.kind = .punct .lbracket →
      Infix names false 1 is i → closing.kind = .punct .rbracket →
      Postfixed names inHeader (bs ++ opening :: (is ++ [closing]))
        (.node (.index base i) (base.span.to closing.span))
  | field {inHeader : Bool} {bs : List Token} {dot name : Token} {sym : Symbol} {base : Tree} :
      Postfixed names inHeader bs base → dot.kind = .punct .dot → name.kind = .ident sym →
      Postfixed names inHeader (bs ++ [dot, name])
        (.node (.fieldAccess base (names.resolve sym)) (base.span.to name.span))

/-- Literals, names, and expressions in brackets. Parentheses leave no node. -/
inductive Primary (names : Interner) : Bool → List Token → Tree → Prop where
  | literal {inHeader : Bool} {token : Token} {kind : NodeKind String Tree} :
      Literal names token.kind kind → Primary names inHeader [token] (.node kind token.span)
  | name {inHeader : Bool} {token : Token} {sym : Symbol} :
      token.kind = .ident sym →
      Primary names inHeader [token] (.node (.ident (names.resolve sym)) token.span)
  | paren {inHeader : Bool} {opening closing : Token} {ts : List Token} {t : Tree} :
      opening.kind = .punct .lparen → Infix names false 1 ts t →
      closing.kind = .punct .rparen →
      Primary names inHeader (opening :: (ts ++ [closing])) t
  | array {inHeader : Bool} {opening closing : Token} {ts : List Token} {elems : List Tree} :
      opening.kind = .punct .lbracket → CommaSeparated (Infix names false 1) ts elems →
      closing.kind = .punct .rbracket →
      Primary names inHeader (opening :: (ts ++ [closing]))
        (.node (.arrayLit elems) (opening.span.to closing.span))
  /-- Only outside headers. -/
  | struct {name opening closing : Token} {sym : Symbol} {ts : List Token}
      {fields : List (FieldInit String Tree)} :
      name.kind = .ident sym → opening.kind = .punct .lbrace →
      CommaSeparated (FieldValue names (Infix names false 1)) ts fields →
      closing.kind = .punct .rbrace →
      Primary names false (name :: opening :: (ts ++ [closing]))
        (.node (.structLit (names.resolve sym) fields) (name.span.to closing.span))

end

def Expr (names : Interner) (inHeader : Bool) : List Token → Tree → Prop :=
  Infix names inHeader 1

def ContinuesName (inHeader : Bool) (kind : TokenKind) : Prop :=
  inHeader = false ∧ kind = .punct .lbrace

def ContinuesOperand (inHeader : Bool) (kind : TokenKind) : Prop :=
  kind = .punct .lparen ∨ kind = .punct .lbracket ∨ kind = .punct .dot ∨
    ContinuesName inHeader kind

def Continues (inHeader : Bool) (kind : TokenKind) : Prop :=
  (∃ level op, InfixSign level kind op) ∨ ContinuesOperand inHeader kind

def StartsPrimary : TokenKind → Prop
  | .int _ | .float _ | .str _ | .char _ | .ident _ => True
  | .keyword word => word = .trueKw ∨ word = .falseKw
  | .punct mark => mark = .lparen ∨ mark = .lbracket
  | .eof => False

def StartsExpr : TokenKind → Prop
  | .punct .bang | .punct .minus | .punct .star | .punct .amp | .punct .andAnd => True
  | kind => StartsPrimary kind

def FirstIs (P : TokenKind → Prop) (ts : List Token) : Prop :=
  ∃ first more, ts = first :: more ∧ P first.kind

theorem FirstIs.append {P : TokenKind → Prop} {ts : List Token} (h : FirstIs P ts)
    (us : List Token) : FirstIs P (ts ++ us) := by
  obtain ⟨first, more, rfl, hfirst⟩ := h
  exact ⟨first, more ++ us, rfl, hfirst⟩

theorem FirstIs.startsExpr {ts : List Token} (h : FirstIs StartsPrimary ts) :
    FirstIs StartsExpr ts := by
  obtain ⟨first, more, rfl, hfirst⟩ := h
  refine ⟨first, more, rfl, ?_⟩
  unfold StartsExpr
  split
  case h_6 => exact hfirst
  all_goals trivial

section

variable {names : Interner} {inHeader : Bool}

/-- The first token of a primary expression is one that the reader looks for. -/
theorem Primary.starts {ts : List Token} {t : Tree} (h : Primary names inHeader ts t) :
    FirstIs StartsPrimary ts := by
  cases h with
  | literal hliteral =>
    refine ⟨_, _, rfl, ?_⟩
    generalize Token.kind _ = kind at hliteral
    cases hliteral <;> simp [StartsPrimary]
  | name hname => exact ⟨_, _, rfl, by simp [StartsPrimary, hname]⟩
  | paren hopen _ _ => exact ⟨_, _, rfl, by simp [StartsPrimary, hopen]⟩
  | array hopen _ _ => exact ⟨_, _, rfl, by simp [StartsPrimary, hopen]⟩
  | struct hname _ _ _ => exact ⟨_, _, rfl, by simp [StartsPrimary, hname]⟩

theorem Postfixed.starts {ts : List Token} {t : Tree} (h : Postfixed names inHeader ts t) :
    FirstIs StartsPrimary ts := by
  match h with
  | .primary hprimary => exact hprimary.starts
  | .call hbase _ _ _ => exact hbase.starts.append _
  | .index hbase _ _ _ => exact hbase.starts.append _
  | .field hbase _ _ => exact hbase.starts.append _

theorem Operand.starts {ts : List Token} {t : Tree} (h : Operand names inHeader ts t) :
    FirstIs StartsExpr ts := by
  cases h with
  | bare hbare => exact hbare.starts.startsExpr
  | sign hsign _ =>
    refine ⟨_, _, rfl, ?_⟩
    generalize hkinds : Token.kind _ :: List.map _ _ = kinds at hsign
    cases hsign <;> simp_all [StartsExpr]
  | refRef hboth _ _ => exact ⟨_, _, rfl, by simp [StartsExpr, hboth]⟩

theorem Infix.starts {level : Nat} {ts : List Token} {t : Tree}
    (h : Infix names inHeader level ts t) : FirstIs StartsExpr ts := by
  match h with
  | .operand hoperand => exact hoperand.starts
  | .tighter _ _ htighter => exact htighter.starts
  | .join _ hleft _ => exact hleft.starts.append _

/-- An expression of a tight level is one of every looser level. -/
theorem Infix.loosen {level least : Nat} {ts : List Token} {t : Tree}
    (h : Infix names inHeader level ts t) (hleast : 1 ≤ least) (hle : least ≤ level)
    (hlevel : level ≤ 12) : Infix names inHeader least ts t := by
  obtain ⟨steps, rfl⟩ := Nat.exists_eq_add_of_le hle
  induction steps with
  | zero => exact h
  | succ steps ih => exact ih (.tighter (by omega) (by omega) h) (by omega) (by omega)

end

/-- The table of infix operators has the levels one to eleven. -/
theorem infixOp?_level {kind : TokenKind} {level : Nat} {op : InfixOp}
    (h : kind.infixOp? = some (level, op)) : 1 ≤ level ∧ level ≤ 11 := by
  cases infixSign_iff.mpr h <;> omega

end StagedCompiler.Grammar
