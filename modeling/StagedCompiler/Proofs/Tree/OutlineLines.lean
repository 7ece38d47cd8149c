import Mathlib.Algebra.GroupWithZero.Nat
import Mathlib.Tactic.SplitIfs
import StagedCompiler.Outline
import StagedCompiler.Proofs.Lexer.SourceTokens
import StagedCompiler.Proofs.Number.NumeralChars
import StagedCompiler.Proofs.Tree.Values

/-!
How many lines an outline has. Every node gets one, and a node's own text stays
within it as long as the names do: texts and characters are shown with escapes
for line ends, and numbers have none.
-/

namespace StagedCompiler

def Flat (text : String) : Prop :=
  '\n' ∉ text.toList

instance (text : String) : Decidable (Flat text) :=
  inferInstanceAs (Decidable (_ ∉ _))

def HasLines (text : String) (n : Nat) : Prop :=
  ∃ lines : List String, text = String.join (lines.map (· ++ "\n")) ∧ lines.length = n ∧
    ∀ line ∈ lines, Flat line

/-! ### Texts within a line -/

@[simp]
theorem flat_append {text more : String} : Flat (text ++ more) ↔ Flat text ∧ Flat more := by
  simp [Flat, not_or]

@[simp]
theorem flat_ofList {chars : List Char} : Flat (String.ofList chars) ↔ '\n' ∉ chars := by
  simp [Flat]

theorem flat_join {parts : List String} (h : ∀ part ∈ parts, Flat part) :
    Flat (String.join parts) := by
  unfold Flat
  rw [String.toList_join]
  intro hmem
  obtain ⟨part, hpart, hend⟩ := List.mem_flatMap.mp hmem
  exact h part hpart hend

theorem flat_intercalate {mark : String} {parts : List String} (hmark : Flat mark)
    (h : ∀ part ∈ parts, Flat part) : Flat (mark.intercalate parts) := by
  unfold Flat at hmark ⊢
  rw [String.toList_intercalate]
  induction parts with
  | nil => simp
  | cons first rest ih =>
    cases rest with
    | nil => simpa using show '\n' ∉ first.toList from h first (by simp)
    | cons second rest =>
      have hfirst : '\n' ∉ first.toList := h first (by simp)
      have hrest := ih fun part hpart => h part (List.mem_cons_of_mem _ hpart)
      simp only [List.map_cons, List.intercalate_cons_cons, List.mem_append, not_or]
      exact ⟨⟨hfirst, hmark⟩, hrest⟩

theorem lineEnd_not_mem_toDigits {base : Nat} (hbase : 1 < base) (n : Nat) :
    '\n' ∉ Nat.toDigits base n := by
  induction n using Nat.strongRecOn with
  | ind n ih =>
    rw [Nat.toDigits_eq_if hbase]
    split
    · simp
    · next hlarge =>
      have hpos : 0 < n := by omega
      have hfront := ih (n / base) (Nat.div_lt_self hpos hbase)
      simp [hfront]

/-- A number is within a line. -/
theorem Decimal.Numeric.flat {text : String} (h : Numeric text) : Flat text :=
  fun hmem => Bool.false_ne_true (h '\n' hmem)

@[simp]
theorem flat_toString_nat (n : Nat) : Flat (toString n) :=
  (Decimal.numeric_toString_nat n).flat

@[simp]
theorem flat_toString_int (v : Int) : Flat (toString v) :=
  (Decimal.numeric_toString_int v).flat

theorem Text.flat_escapeIn (quote c : Char) : Flat (Text.escapeIn quote c) := by
  unfold Text.escapeIn
  have hchar (c : Char) (h : c ≠ '\n') : Flat c.toString := by
    simpa [Flat, Char.toString] using h.symm
  split_ifs with h1 h2 h3 hend h5 h6 h7
  iterate 5 decide
  · rw [flat_append]
    exact ⟨by decide, hchar c hend⟩
  · exact hchar c hend
  · simp only [flat_append, Text.hexDigits, flat_ofList]
    exact ⟨⟨by decide, lineEnd_not_mem_toDigits (by decide) _⟩, by decide⟩

@[simp]
theorem Text.flat_quoteString (text : String) : Flat (Text.quoteString text) := by
  simp only [Text.quoteString, flat_append]
  refine ⟨⟨by decide, flat_join ?_⟩, by decide⟩
  intro part hpart
  obtain ⟨c, -, rfl⟩ := List.mem_map.mp hpart
  exact Text.flat_escapeIn _ c

@[simp]
theorem Text.flat_quoteChar (c : Char) : Flat (Text.quoteChar c) := by
  simp only [Text.quoteChar, flat_append]
  exact ⟨⟨by decide, Text.flat_escapeIn _ c⟩, by decide⟩

@[simp]
theorem TokenKind.flat_render (x : Double) : Flat (TokenKind.floatLayout.render x) := by
  unfold Decimal.Layout.render
  split_ifs
  iterate 3 decide
  · rw [flat_append]
    exact ⟨by decide, (Decimal.Layout.numeric_magnitude _ x).flat⟩
  · exact (Decimal.Layout.numeric_magnitude _ x).flat

/-- Words are within a line. -/
theorem IsWord.flat {text : String} (h : IsWord text) : Flat text := by
  obtain ⟨lexeme, rfl, hparts⟩ := h
  rw [Text.ofLatin1, flat_ofList]
  intro hmem
  obtain ⟨b, hb, hend⟩ := List.mem_map.mp hmem
  have hbyte : b = 10 := by
    have hcode := congrArg Char.toNat hend
    rw [Text.toNat_ofNat_byte] at hcode
    exact UInt8.toNat_inj.mp hcode
  rw [hbyte] at hb
  exact absurd (hparts 10 hb) (by decide)

/-! ### Lines of a tree -/

def Tree.nodes (t : Tree) : Nat :=
  t.fold fun _ _ counts => counts.sum + 1

namespace Tree

theorem nodes_node (kind : NodeKind String Tree) (span : Span) :
    (node kind span).nodes = (kind.children.map nodes).sum + 1 :=
  fold_node _ kind span

theorem outlineLines_node (kind : NodeKind String Tree) (span : Span) (depth : Nat) :
    (node kind span).outlineLines depth =
      (outlineIndent depth ++ kind.label ++ kind.detail ++ "\n") ::
        kind.children.flatMap fun child => child.outlineLines (depth + 1) := by
  unfold outlineLines
  rw [fold_node, List.flatMap_map]

/-- Every node has a line. -/
theorem length_outlineLines (t : Tree) (depth : Nat) : (t.outlineLines depth).length = t.nodes := by
  induction t using Tree.induction generalizing depth with
  | step kind span ih =>
    rw [outlineLines_node, nodes_node, List.length_cons, List.length_flatMap]
    have hchildren : kind.children.map (fun child => (child.outlineLines (depth + 1)).length) =
        kind.children.map nodes :=
      List.map_congr_left fun child hchild => ih child hchild (depth + 1)
    rw [hchildren]

theorem mem_values_of_child {kind : NodeKind String Tree} {span : Span} {child : Tree} {v : Value}
    (hchild : child ∈ kind.children) (hv : v ∈ child.values) : v ∈ (node kind span).values := by
  have hparts : v ∈ (kind.children.map values).flatten :=
    List.mem_flatten.mpr ⟨_, List.mem_map_of_mem hchild, hv⟩
  cases kind with
  | structLit name fields =>
    rw [values_structLit]
    obtain ⟨field, hfield, rfl⟩ := List.mem_map.mp hchild
    apply List.mem_cons_of_mem
    rw [List.mem_flatMap]
    exact ⟨field, hfield, List.mem_cons_of_mem _ hv⟩
  | _ =>
    rw [values_node]
    simp_all [valuesStep, NodeKind.children]

/-- Names are all that could end the line of a node. -/
theorem flat_detail {kind : NodeKind String Tree} {span : Span}
    (h : ∀ name, Value.ident name ∈ (node kind span).values → Flat name) : Flat kind.detail := by
  have hname (text : String) : Flat (" " ++ text) ↔ Flat text := by simp [Flat]
  rw [values_node] at h
  cases kind with
  | function name isPublic params ret body =>
    have hflat := h name (by simp [valuesStep])
    have hmark : Flat (if isPublic then "pub " else "") := by split <;> decide
    simp only [NodeKind.detail, flat_append]
    exact ⟨⟨by decide, hmark⟩, hflat⟩
  | importPath path =>
    simp only [NodeKind.detail, hname]
    apply flat_intercalate (by decide)
    exact fun part hpart => h part (by simpa [valuesStep] using hpart)
  | fieldAccess base name =>
    have hflat := h name (by simp [valuesStep])
    simp only [NodeKind.detail, flat_append]
    exact ⟨by decide, hflat⟩
  | struct name _ | field name _ | param name _ _ | letStmt name _ _ _ | structLit name _
  | ident name | forStmt name _ _ | namedType name =>
    exact (hname _).mpr (h _ (by simp [valuesStep]))
  | int v => exact (hname _).mpr (flat_toString_int v)
  | float x => exact (hname _).mpr (TokenKind.flat_render x)
  | str text => exact (hname _).mpr (Text.flat_quoteString text)
  | char v => exact (hname _).mpr (Text.flat_quoteChar _)
  | arrayType elem len =>
    simp only [NodeKind.detail, flat_append]
    exact ⟨⟨by decide, flat_toString_nat len⟩, by decide⟩
  | assign _ op _ =>
    apply (hname _).mpr
    cases op <;> decide
  | binary op _ _ =>
    apply (hname _).mpr
    cases op <;> decide
  | unary op _ =>
    apply (hname _).mpr
    cases op <;> decide
  | primType type =>
    apply (hname _).mpr
    cases type <;> decide
  | range _ _ flag | bool flag | refType flag _ => cases flag <;> simp [NodeKind.detail, Flat]
  | _ => simp [NodeKind.detail, Flat]

theorem flat_label {Name Child : Type} (kind : NodeKind Name Child) : Flat kind.label := by
  cases kind <;> simp [NodeKind.label, Flat]

theorem flat_outlineLines {t : Tree} (h : ∀ name, Value.ident name ∈ t.values → Flat name)
    {depth : Nat} {line : String} (hline : line ∈ t.outlineLines depth) :
    ∃ text, line = text ++ "\n" ∧ Flat text := by
  induction t using Tree.induction generalizing depth with
  | step kind span ih =>
    rw [outlineLines_node] at hline
    rcases List.mem_cons.mp hline with rfl | hbelow
    · refine ⟨_, rfl, ?_⟩
      simp only [flat_append, outlineIndent, flat_ofList]
      exact ⟨⟨by simp, flat_label kind⟩, flat_detail h⟩
    · obtain ⟨child, hchild, hline⟩ := List.mem_flatMap.mp hbelow
      exact ih child hchild (fun name hname => h name (mem_values_of_child hchild hname)) hline

/-- An outline has as many lines as there are nodes, unless a name breaks one. -/
theorem hasLines_outline {t : Tree} (h : ∀ name, Value.ident name ∈ t.values → Flat name) :
    HasLines t.outline t.nodes := by
  have hlines : ∀ line ∈ t.outlineLines 0, ∃ text, text ++ "\n" = line ∧ Flat text := by
    intro line hline
    obtain ⟨text, rfl, hflat⟩ := flat_outlineLines h hline
    exact ⟨text, rfl, hflat⟩
  obtain ⟨texts, htexts, hflat⟩ : ∃ texts : List String,
      texts.map (· ++ "\n") = t.outlineLines 0 ∧ ∀ text ∈ texts, Flat text := by
    generalize t.outlineLines 0 = lines at hlines
    induction lines with
    | nil => exact ⟨[], rfl, by simp⟩
    | cons line lines ih =>
      obtain ⟨text, hline, htext⟩ := hlines line (by simp)
      obtain ⟨texts, hmap, hall⟩ := ih fun line hline => hlines line (List.mem_cons_of_mem _ hline)
      refine ⟨text :: texts, by rw [List.map_cons, hline, hmap], ?_⟩
      intro other hother
      rcases List.mem_cons.mp hother with rfl | hother
      · exact htext
      · exact hall other hother
  refine ⟨texts, by rw [htexts]; rfl, ?_, hflat⟩
  rw [← length_outlineLines t 0, ← htexts, List.length_map]

end Tree

end StagedCompiler
