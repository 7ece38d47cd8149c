import StagedCompiler.Ast
import StagedCompiler.Parser.Expr

/-!
The values that a source spells out: names, numbers, texts and truth values.
They are read off the tokens from left to right, and off a tree by going
through it in the order of the source.
-/

namespace StagedCompiler

inductive Value where
  | ident (name : String)
  | int (value : Int)
  | float (value : Double)
  | str (text : String)
  | char (value : UInt8)
  | bool (value : Bool)
deriving DecidableEq

def TokenKind.value? (names : Interner) : TokenKind → Option Value
  | .ident sym => some (.ident (names.resolve sym))
  | .int v => some (.int v)
  | .float v => some (.float v)
  | .str sym => some (.str (names.resolve sym))
  | .char v => some (.char v)
  | .keyword .trueKw => some (.bool true)
  | .keyword .falseKw => some (.bool false)
  | _ => none

@[simp]
theorem TokenKind.value?_ident (names : Interner) (sym : Symbol) :
    (TokenKind.ident sym).value? names = some (.ident (names.resolve sym)) :=
  rfl

/-- The table is too large to be unfolded in a proof that has its keyword. -/
theorem TokenKind.value?_keyword (names : Interner) (word : Keyword) :
    (TokenKind.keyword word).value? names = word.truth?.map .bool := by
  cases word <;> rfl

def tokenValues (names : Interner) (ts : List Token) : List Value :=
  ts.filterMap fun t => t.kind.value? names

/-- The values of a node, from those of its children. A field is named behind
its base, a length stands behind its element type, and each field of a literal
has its name before its value; all other names come first. -/
def Tree.valuesStep (kind : NodeKind String Tree) (_ : Span) (parts : List (List Value)) :
    List Value :=
  match kind with
  | .function name .. | .struct name _ | .field name _ | .param name .. | .letStmt name ..
  | .forStmt name .. => .ident name :: parts.flatten
  | .importPath path => path.map .ident
  | .fieldAccess _ name => parts.flatten ++ [.ident name]
  | .structLit name fields =>
    .ident name :: (List.zipWith (fun field part => .ident field.name :: part) fields parts).flatten
  | .arrayType _ len => parts.flatten ++ [.int len]
  | .ident name | .namedType name => [.ident name]
  | .primType type => [.ident type.name]
  | .int v => [.int v]
  | .float v => [.float v]
  | .str text => [.str text]
  | .char v => [.char v]
  | .bool v => [.bool v]
  | _ => parts.flatten

def Tree.values (t : Tree) : List Value :=
  t.fold Tree.valuesStep

theorem Tree.values_node (kind : NodeKind String Tree) (span : Span) :
    (Tree.node kind span).values = valuesStep kind span (kind.children.map values) :=
  fold_node _ kind span

theorem Tree.values_structLit (name : String) (fields : List (FieldInit String Tree))
    (span : Span) :
    (Tree.node (.structLit name fields) span).values =
      .ident name :: fields.flatMap fun field => .ident field.name :: field.value.values := by
  rw [values_node]
  simp only [valuesStep, NodeKind.children, List.map_map, List.zipWith_map_right,
    List.zipWith_self, List.flatMap_def, Function.comp_def]

/-- The values and the nodes that a node is made of, in the order of the
source. -/
def NodeKind.parts (names : Interner) (kind : NodeKind Symbol NodeId) : List (Value ⊕ NodeId) :=
  match kind with
  | .function name .. | .struct name _ | .field name _ | .param name .. | .letStmt name ..
  | .forStmt name .. => .inl (.ident (names.resolve name)) :: kind.children.map .inr
  | .importPath path => path.map fun name => .inl (.ident (names.resolve name))
  | .fieldAccess base name => [.inr base, .inl (.ident (names.resolve name))]
  | .structLit name fields =>
    .inl (.ident (names.resolve name)) ::
      fields.flatMap fun field => [.inl (.ident (names.resolve field.name)), .inr field.value]
  | .arrayType elem len => [.inr elem, .inl (.int len)]
  | .ident name | .namedType name => [.inl (.ident (names.resolve name))]
  | .primType type => [.inl (.ident type.name)]
  | .int v => [.inl (.int v)]
  | .float v => [.inl (.float v)]
  | .str text => [.inl (.str (names.resolve text))]
  | .char v => [.inl (.char v)]
  | .bool v => [.inl (.bool v)]
  | _ => kind.children.map .inr

theorem NodeKind.children_of_parts (names : Interner) (kind : NodeKind Symbol NodeId) :
    (kind.parts names).filterMap Sum.getRight? = kind.children := by
  have hchildren (ids : List NodeId) :
      (ids.map (.inr : NodeId → Value ⊕ NodeId)).filterMap Sum.getRight? = ids := by
    simp [List.filterMap_map, Function.comp_def]
  cases kind with
  | function | struct | field | param | letStmt | forStmt =>
    exact (List.filterMap_cons_none rfl).trans (hchildren _)
  | importPath path => simp [parts, children]
  | structLit name fields =>
    refine (List.filterMap_cons_none rfl).trans ?_
    rw [List.filterMap_flatMap, children, List.map_eq_flatMap]
    rfl
  | fieldAccess | arrayType | ident | namedType | primType | int | float | str | char | bool => rfl
  | _ => exact hchildren _

/-- The values of a node are those of its parts, one behind the other. -/
theorem Tree.values_of_parts (names : Interner) (kind : NodeKind Symbol NodeId)
    (tree : NodeId → Tree) (span : Span) :
    (Tree.node (kind.map names.resolve tree) span).values =
      (kind.parts names).flatMap (Sum.elim (fun v => [v]) fun id => (tree id).values) := by
  have hchildren (ids : List NodeId) :
      ((ids.map tree).map values).flatten =
        (ids.map .inr).flatMap (Sum.elim (fun v => [v]) fun id => (tree id).values) := by
    rw [List.map_map, List.flatMap_map, List.flatMap_def]
    rfl
  cases kind with
  | structLit name fields =>
    rw [NodeKind.map, values_structLit]
    simp [NodeKind.parts, List.flatMap_assoc, List.flatMap_map]
  | importPath path =>
    rw [values_node, NodeKind.parts, List.flatMap_map]
    simp [valuesStep, NodeKind.map, List.map_eq_flatMap, List.flatMap_assoc]
  | function | struct | field | param | letStmt | forStmt =>
    rw [values_node, NodeKind.children_map]
    exact congrArg (List.cons _) (hchildren _)
  | ident | namedType | primType | int | float | str | char | bool => rfl
  | fieldAccess base name | arrayType elem len =>
    rw [values_node]
    simp [valuesStep, NodeKind.map, NodeKind.parts, NodeKind.children]
  | _ =>
    rw [values_node, NodeKind.children_map]
    exact hchildren _

section

variable {names : Interner} {t : Token} {ts us : List Token}

@[simp]
theorem tokenValues_append :
    tokenValues names (ts ++ us) = tokenValues names ts ++ tokenValues names us :=
  List.filterMap_append

@[simp]
theorem tokenValues_cons :
    tokenValues names (t :: ts) = (t.kind.value? names).toList ++ tokenValues names ts := by
  unfold tokenValues
  cases h : t.kind.value? names with
  | none => simp [h]
  | some v => simp [h]

end

end StagedCompiler
