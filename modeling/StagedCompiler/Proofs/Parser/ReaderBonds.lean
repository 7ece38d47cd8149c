import Mathlib.Data.List.Forall2
import StagedCompiler.Parser.Program

/-!
Two runs of a reader go side by side, and a `Bond` says what is known of what
they meet: that places agree, that a name is one of the stream, what a node was
read as. `Bond.Kept` are the judgements about pairs of readers that the steps,
sequencing and the loops keep; `Bond.Stepwise` are those that ask for no more
than the steps. For a property of single runs, both runs are the same one.
-/

namespace StagedCompiler.Parser

/-- What a node was read as. The numbers are the levels that were left where its
reader started and, for a chain, those that are left behind it. -/
inductive Part where
  | type (depth : Nat)
  | operand (depth : Nat)
  /-- The inner one of two references that share a token. -/
  | reference (depth : Nat)
  | primary (depth : Nat)
  | postfixed (first left : Nat)
  | linked (first left : Nat)
  | expr (depth : Nat)
  | stmt (depth : Nat)
  | block (depth : Nat)
  | conditional (depth : Nat)
  | branch (depth : Nat)
  | param (depth : Nat)
  | field (depth : Nat)
  | item (depth : Nat)
  | program

/-- What was read as the first part counts as the second. -/
inductive Part.Sub : Part → Part → Prop
  | group (n : Nat) : Sub (.expr n) (.primary n)
  | base (n : Nat) : Sub (.primary n) (.postfixed n n)
  | bare (n m : Nat) : Sub (.postfixed n m) (.operand (n + 1))
  | first (n : Nat) : Sub (.operand n) (.linked n n)
  | whole (n m : Nat) : Sub (.linked n m) (.expr n)
  | blockStmt (n : Nat) : Sub (.block n) (.stmt n)
  | conditionalStmt (n : Nat) : Sub (.conditional n) (.stmt n)
  | blockBranch (n : Nat) : Sub (.block n) (.branch n)
  | conditionalBranch (n : Nat) : Sub (.conditional n) (.branch n)

/-- What is known of two runs. Names and nodes are known from some point of the
runs on, and the points are ordered. -/
structure Bond (W : Type) where
  le : W → W → Prop
  refl (w : W) : le w w
  trans {w w' w'' : W} : le w w' → le w' w'' → le w w''
  place : Span → Span → Prop
  place_to {a a' b b' : Span} : place a a' → place b b' → place (a.to b) (a'.to b')
  /-- The tokens, which are of one kind in both runs. -/
  known : TokenKind → Prop
  name : W → Symbol → Prop
  name_of_known {w : W} {sym : Symbol} : known (.ident sym) → name w sym
  name_later {w w' : W} {sym : Symbol} : le w w' → name w sym → name w' sym
  id : W → Part → NodeId → NodeId → Prop
  id_later {w w' : W} {k : Part} {i i' : NodeId} : le w w' → id w k i i' → id w' k i i'
  id_sub {w : W} {k k' : Part} {i i' : NodeId} : k.Sub k' → id w k i i' → id w k' i i'
  /-- The levels that are left, which must be the same if the limits are `even`. -/
  level : Nat → Nat → Prop
  even : Prop
  level_zero {d : Nat} : level 0 d → even → d = 0
  level_succ {d d' : Nat} : level (d + 1) d' → ∃ e, d' = e + 1 ∧ level d e
  /-- The levels that a program starts with. -/
  top : Nat → Prop
  /-- Whether nothing is asked of a run that goes beside itself. -/
  free : Prop
  place_self : free → ∀ a, place a a
  name_self : free → ∀ w sym, name w sym
  id_self : free → ∀ w k i, id w k i i

namespace Bond

/-! ### Levels of runs that go down together -/

theorem level_zero_of_eq {d : Nat} (h : 0 = d) (_ : True) : d = 0 :=
  h.symm

theorem level_succ_of_eq {d d' : Nat} (h : d + 1 = d') : ∃ e, d' = e + 1 ∧ d = e :=
  ⟨d, h.symm, rfl⟩

/-! ### Facts about results -/

def Same {W α : Type} (_ : W) (x x' : α) : Prop :=
  x = x'

def Each {W α : Type} (R : W → α → α → Prop) (w : W) (xs xs' : List α) : Prop :=
  List.Forall₂ (R w) xs xs'

theorem Each.push {W α : Type} {R : W → α → α → Prop} {w : W} {done done' : Array α} {x x' : α}
    (h : Each R w done.toList done'.toList) (hx : R w x x') :
    Each R w (done.push x).toList (done'.push x').toList := by
  rw [Array.toList_push, Array.toList_push]
  exact List.rel_append h (.cons hx .nil)

def Maybe {W α : Type} (R : W → α → α → Prop) (w : W) (x x' : Option α) : Prop :=
  Option.Rel (R w) x x'

section

variable {W : Type} (bond : Bond W)

def Place (_ : W) (a a' : Span) : Prop :=
  bond.place a a'

def Word (w : W) (sym sym' : Symbol) : Prop :=
  sym = sym' ∧ bond.name w sym

structure Named (w : W) (x x' : Symbol × Span) : Prop where
  word : bond.Word w x.1 x'.1
  place : bond.place x.2 x'.2

structure Node (k : Part) (w : W) (b b' : Built) : Prop where
  id : bond.id w k b.id b'.id
  place : bond.place b.span b'.span
  isPlace : b.node.kind.isPlace = b'.node.kind.isPlace

def Id (k : Part) (w : W) (i i' : NodeId) : Prop :=
  bond.id w k i i'

structure Field (n : Nat) (w : W) (f f' : FieldInit Symbol NodeId) : Prop where
  word : bond.Word w f.name f'.name
  value : bond.id w (.expr n) f.value f'.value
  place : bond.place f.span f'.span

structure Path (w : W) (x x' : List Symbol × Span) : Prop where
  words : Each bond.Word w x.1 x'.1
  place : bond.place x.2 x'.2

/-- A fact that lasts, and that is no news if nothing is asked. -/
class Fact {α : Type} (R : W → α → α → Prop) : Prop where
  self : bond.free → ∀ w a, R w a a
  later {w w' : W} {a a' : α} : bond.le w w' → R w a a' → R w' a a'

inductive Forms (w : W) : Part → NodeKind Symbol NodeId → NodeKind Symbol NodeId → Prop
  | prim {n : Nat} (type : PrimType) : Forms w (.type (n + 1)) (.primType type) (.primType type)
  | named {n : Nat} {name : Symbol} :
      bond.name w name → Forms w (.type (n + 1)) (.namedType name) (.namedType name)
  | array {n : Nat} {i i' : NodeId} (len : Nat) :
      bond.id w (.type n) i i' → Forms w (.type (n + 1)) (.arrayType i len) (.arrayType i' len)
  | ref {n : Nat} {i i' : NodeId} (mutable : Bool) :
      bond.id w (.type n) i i' →
        Forms w (.type (n + 1)) (.refType mutable i) (.refType mutable i')
  | unary {n : Nat} {i i' : NodeId} (op : UnaryOp) :
      bond.id w (.operand n) i i' → Forms w (.operand (n + 1)) (.unary op i) (.unary op i')
  | inner {n : Nat} {i i' : NodeId} :
      bond.id w (.operand n) i i' → Forms w (.reference n) (.unary .ref i) (.unary .ref i')
  | outer {n : Nat} {i i' : NodeId} :
      bond.id w (.reference n) i i' → Forms w (.operand (n + 1)) (.unary .ref i) (.unary .ref i')
  | literal {n : Nat} {t : TokenKind} {kind : NodeKind Symbol NodeId} :
      bond.known t → t.literal? = some kind → Forms w (.primary n) kind kind
  | zero {n : Nat} : Forms w (.primary n) (.int 0) (.int 0)
  | ident {n : Nat} {name : Symbol} :
      bond.name w name → Forms w (.primary n) (.ident name) (.ident name)
  | arrayLit {n : Nat} {is is' : List NodeId} :
      List.Forall₂ (bond.id w (.expr n)) is is' →
        Forms w (.primary n) (.arrayLit is) (.arrayLit is')
  | structLit {n : Nat} {name : Symbol} {fs fs' : List (FieldInit Symbol NodeId)} :
      bond.name w name → List.Forall₂ (bond.Field n w) fs fs' →
        Forms w (.primary n) (.structLit name fs) (.structLit name fs')
  | call {n m : Nat} {i i' : NodeId} {is is' : List NodeId} :
      bond.id w (.postfixed n (m + 1)) i i' → List.Forall₂ (bond.id w (.expr m)) is is' →
        Forms w (.postfixed n m) (.call i is) (.call i' is')
  | index {n m : Nat} {i i' j j' : NodeId} :
      bond.id w (.postfixed n (m + 1)) i i' → bond.id w (.expr m) j j' →
        Forms w (.postfixed n m) (.index i j) (.index i' j')
  | fieldAccess {n m : Nat} {i i' : NodeId} {name : Symbol} :
      bond.id w (.postfixed n (m + 1)) i i' → bond.name w name →
        Forms w (.postfixed n m) (.fieldAccess i name) (.fieldAccess i' name)
  | link {n m : Nat} {i i' j j' : NodeId} (op : InfixOp) :
      bond.id w (.linked n (m + 1)) i i' → bond.id w (.expr m) j j' →
        Forms w (.linked n m) (op.node i j) (op.node i' j')
  | letStmt {n : Nat} {name : Symbol} {i i' j j' : Option NodeId} (mutable : Bool) :
      bond.name w name → Option.Rel (bond.id w (.type n)) i i' →
        Option.Rel (bond.id w (.expr n)) j j' →
        Forms w (.stmt n) (.letStmt name mutable i j) (.letStmt name mutable i' j')
  | assign {n : Nat} {i i' j j' : NodeId} (op : AssignOp) :
      bond.id w (.expr n) i i' → bond.id w (.expr n) j j' →
        Forms w (.stmt n) (.assign i op j) (.assign i' op j')
  | returnStmt {n : Nat} {i i' : Option NodeId} :
      Option.Rel (bond.id w (.expr n)) i i' → Forms w (.stmt n) (.returnStmt i) (.returnStmt i')
  | exprStmt {n : Nat} {i i' : NodeId} :
      bond.id w (.expr n) i i' → Forms w (.stmt n) (.exprStmt i) (.exprStmt i')
  | whileStmt {n : Nat} {i i' j j' : NodeId} :
      bond.id w (.expr n) i i' → bond.id w (.block n) j j' →
        Forms w (.stmt n) (.whileStmt i j) (.whileStmt i' j')
  | forStmt {n : Nat} {name : Symbol} {i i' j j' : NodeId} :
      bond.name w name → bond.id w (.expr n) i i' → bond.id w (.block n) j j' →
        Forms w (.stmt n) (.forStmt name i j) (.forStmt name i' j')
  | breakStmt {n : Nat} : Forms w (.stmt n) .breakStmt .breakStmt
  | continueStmt {n : Nat} : Forms w (.stmt n) .continueStmt .continueStmt
  | block {n : Nat} {is is' : List NodeId} :
      List.Forall₂ (bond.id w (.stmt n)) is is' → Forms w (.block (n + 1)) (.block is) (.block is')
  | ifStmt {n : Nat} {i i' j j' : NodeId} {k k' : Option NodeId} :
      bond.id w (.expr n) i i' → bond.id w (.block n) j j' →
        Option.Rel (bond.id w (.branch n)) k k' →
        Forms w (.conditional (n + 1)) (.ifStmt i j k) (.ifStmt i' j' k')
  | param {n : Nat} {name : Symbol} {i i' : NodeId} (mutable : Bool) :
      bond.name w name → bond.id w (.type n) i i' →
        Forms w (.param n) (.param name mutable i) (.param name mutable i')
  | field {n : Nat} {name : Symbol} {i i' : NodeId} :
      bond.name w name → bond.id w (.type n) i i' →
        Forms w (.field n) (.field name i) (.field name i')
  | function {n : Nat} {name : Symbol} {is is' : List NodeId} {i i' : Option NodeId}
      {j j' : NodeId} (isPublic : Bool) :
      bond.name w name → List.Forall₂ (bond.id w (.param n)) is is' →
        Option.Rel (bond.id w (.type n)) i i' → bond.id w (.block n) j j' →
        Forms w (.item n) (.function name isPublic is i j) (.function name isPublic is' i' j')
  | struct {n : Nat} {name : Symbol} {is is' : List NodeId} :
      bond.name w name → List.Forall₂ (bond.id w (.field n)) is is' →
        Forms w (.item n) (.struct name is) (.struct name is')
  | importPath {n : Nat} {path : List Symbol} :
      (∀ sym ∈ path, bond.name w sym) → Forms w (.item n) (.importPath path) (.importPath path)
  | program {n : Nat} {is is' : List NodeId} :
      bond.top n → List.Forall₂ (bond.id w (.item n)) is is' →
        Forms w .program (.program is) (.program is')

/-- A judgement about two readers at a point, with a fact about what they give,
that holds of the steps and is kept by sequencing. -/
structure Steps (P : (α : Type) → W → (W → α → α → Prop) → Parser α → Parser α → Prop) :
    Prop where
  pure {α : Type} {w : W} {R : W → α → α → Prop} {a a' : α} :
    R w a a' → P α w R (pure a) (pure a')
  bind {α β : Type} {w : W} {R : W → α → α → Prop} {Q : W → β → β → Prop} {p p' : Parser α}
    {f f' : α → Parser β} [bond.Fact R] : P α w R p p' →
    (∀ a a' w', bond.le w w' → R w' a a' → P β w' Q (f a) (f' a')) →
      P β w Q (p >>= f) (p' >>= f')
  current {β : Type} {w : W} {Q : W → β → β → Prop} {f f' : Token → Parser β} :
    (∀ kind span span', bond.known kind → bond.place span span' →
      P β w Q (f ⟨kind, span⟩) (f' ⟨kind, span'⟩)) →
      P β w Q (current >>= f) (current >>= f')
  resolve {β : Type} {w : W} {Q : W → β → β → Prop} {f f' : String → Parser β} (sym : Symbol) :
    (∀ text, P β w Q (f text) (f' text)) → P β w Q (resolve sym >>= f) (resolve sym >>= f')
  advance {w : W} : P Unit w Same advance advance
  fault {w : W} (f : ParseFault) {span span' : Span} :
    bond.place span span' → P Unit w Same (fault f span) (fault f span')
  /-- The name for missing ones is made up behind a report. -/
  missing {w : W} (f : ParseFault) {span span' : Span} : bond.place span span' →
    P Symbol w bond.Word (do Parser.fault f span; intern missingName)
      (do Parser.fault f span'; intern missingName)
  build {w : W} {k : Part} {kind kind' : NodeKind Symbol NodeId} {span span' : Span} :
    bond.Forms w k kind kind' → bond.place span span' →
      P Built w (bond.Node k) (build kind span) (build kind' span')
  /-- The second reader may go on where the first is too deep, if it has a
  larger limit. -/
  tooDeep {α : Type} {w : W} {R : W → α → α → Prop} {p' : Parser α} :
    (bond.even → p' = tooDeep) → P α w R tooDeep p'

def Makes (P : (α : Type) → W → (W → α → α → Prop) → Parser α → Parser α → Prop) (k : Part)
    (p p' : Parser Built) : Prop :=
  ∀ w, P Built w (bond.Node k) p p'

/-- A judgement that the loops keep as well, and the one look at more tokens
than the front one. -/
structure Kept (P : (α : Type) → W → (W → α → α → Prop) → Parser α → Parser α → Prop) : Prop
    extends bond.Steps P where
  isAtStructBody {w : W} : P Bool w Same isAtStructBody isAtStructBody
  commaList {α : Type} {R : W → α → α → Prop} {item item' : Parser α} [bond.Fact R] {w : W}
    (close : TokenKind) : (∀ w, P α w R item item') →
      P (List α) w (Each R) (commaList close item) (commaList close item')
  stmts {n : Nat} {stmt stmt' : Parser Built} {w : W} : bond.Makes P (.stmt n) stmt stmt' →
    P (List NodeId) w (Each (bond.Id (.stmt n))) (do stmtsUntil stmt (← rounds) #[])
      (do stmtsUntil stmt' (← rounds) #[])

/-- A judgement that is kept by whatever else readers do. They consult the
settings only for the number of rounds and the allowed nesting. -/
structure Stepwise (P : (α : Type) → W → (W → α → α → Prop) → Parser α → Parser α → Prop) : Prop
    extends bond.Steps P where
  peek {β : Type} {w : W} {Q : W → β → β → Prop} {f f' : Token → Parser β} (n : Nat) :
    (∀ kind span span', P β w Q (f ⟨kind, span⟩) (f' ⟨kind, span'⟩)) →
      P β w Q (peek n >>= f) (peek n >>= f')
  consumed {β : Type} {w : W} {Q : W → β → β → Prop} {f f' : Nat → Parser β} :
    (∀ n, P β w Q (f n) (f' n)) → P β w Q (consumed >>= f) (consumed >>= f')
  rounds {β : Type} {w : W} {Q : W → β → β → Prop} {f f' : Nat → Parser β} :
    (∀ n, P β w Q (f n) (f' n)) → P β w Q (rounds >>= f) (rounds >>= f')
  advanceWhile {w : W} (skip : TokenKind → Bool) :
    P Unit w Same (advanceWhile skip) (advanceWhile skip)
  withMaxDepth {α : Type} {w : W} {R : W → α → α → Prop} {f f' : Nat → Parser α} :
    (∀ depth depth', bond.level depth depth' → bond.top depth → P α w R (f depth) (f' depth')) →
      P α w R (do f (← read).maxDepth) (do f' (← read).maxDepth)

end

section

variable {W α : Type} {bond : Bond W} {w w' : W} {k k' : Part} {R : W → α → α → Prop}

theorem Node.sub {b b' : Built} (h : bond.Node k w b b') (hsub : k.Sub k') :
    bond.Node k' w b b' :=
  ⟨bond.id_sub hsub h.id, h.place, h.isPlace⟩

instance fact_same : bond.Fact (Same : W → α → α → Prop) where
  self _ _ _ := rfl
  later _ h := h

instance fact_place : bond.Fact bond.Place where
  self hfree _ a := bond.place_self hfree a
  later _ h := h

instance fact_word : bond.Fact bond.Word where
  self hfree w sym := ⟨rfl, bond.name_self hfree w sym⟩
  later hle h := ⟨h.1, bond.name_later hle h.2⟩

instance fact_named : bond.Fact bond.Named where
  self hfree w x := ⟨Fact.self hfree w x.1, bond.place_self hfree x.2⟩
  later hle h := ⟨Fact.later hle h.word, h.place⟩

instance fact_node : bond.Fact (bond.Node k) where
  self hfree w b := ⟨bond.id_self hfree w k b.id, bond.place_self hfree _, rfl⟩
  later hle h := ⟨bond.id_later hle h.id, h.place, h.isPlace⟩

instance fact_id : bond.Fact (bond.Id k) where
  self hfree w i := bond.id_self hfree w k i
  later hle h := bond.id_later hle h

instance fact_field (n : Nat) : bond.Fact (bond.Field n) where
  self hfree w f := ⟨Fact.self hfree w f.name, bond.id_self hfree w _ f.value,
    bond.place_self hfree f.span⟩
  later hle h := ⟨Fact.later hle h.word, bond.id_later hle h.value, h.place⟩

instance fact_each [bond.Fact R] : bond.Fact (Each R) where
  self hfree w _ := List.forall₂_same.mpr fun x _ => Fact.self hfree w x
  later hle h := h.imp fun _ _ hx => Fact.later hle hx

instance fact_maybe [bond.Fact R] : bond.Fact (Maybe R) where
  self hfree w x := by
    cases x with
    | none => exact .none
    | some a => exact .some (Fact.self hfree w a)
  later hle h := by
    cases h with
    | none => exact .none
    | some ha => exact .some (Fact.later hle ha)

instance fact_path : bond.Fact bond.Path where
  self hfree w x := ⟨Fact.self hfree w x.1, bond.place_self hfree x.2⟩
  later hle h := ⟨Fact.later hle h.words, h.place⟩

theorem ids_of_each {bs bs' : List Built} (h : Each (bond.Node k) w bs bs') :
    List.Forall₂ (bond.id w k) (bs.map (·.id)) (bs'.map (·.id)) := by
  rw [List.forall₂_map_left_iff, List.forall₂_map_right_iff]
  exact h.imp fun _ _ hb => hb.id

theorem id_of_maybe {b b' : Option Built} (h : Maybe (bond.Node k) w b b') :
    Option.Rel (bond.id w k) (b.map (·.id)) (b'.map (·.id)) := by
  cases h with
  | none => exact .none
  | some hb => exact .some hb.id

theorem words_of_each {xs xs' : List Symbol} (h : Each bond.Word w xs xs') :
    xs = xs' ∧ ∀ sym ∈ xs, bond.name w sym := by
  induction h with
  | nil => simp
  | cons hx _ ih => exact ⟨by rw [hx.1, ih.1], List.forall_mem_cons.mpr ⟨hx.2, ih.2⟩⟩

end

end Bond

end StagedCompiler.Parser
