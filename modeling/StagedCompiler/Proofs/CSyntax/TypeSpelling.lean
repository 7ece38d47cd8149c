import StagedCompiler.Proofs.CSyntax.ExprReading
import StagedCompiler.Proofs.CSyntax.Lines
import StagedCompiler.Target.Type

/-!
The tokens of generated types and declarations. Every type is a few words with
stars behind them, so that a declaration is told from an expression by its
first word.
-/

namespace StagedCompiler.CSyntax

open Target (CType)

theorem Spells.lexemesOf_eq {text : String} {ts : List Lexeme} {next : Char → Prop}
    (h : Spells text.toList ts next) : lexemesOf text = ts := by
  rw [lexemesOf, h.lexemes?_eq, Option.getD_some]

theorem spells_nil (next : Char → Prop) : Spells [] [] next where
  quiet := quiet_nil
  cut rest _ := by
    rw [List.nil_append]
    cases cut? 0 rest <;> rfl

/-- Behind a token that ends by itself anything may follow, also nothing. -/
theorem Spells.append_any {text text' : List Char} {ts ts' : List Lexeme} {next : Char → Prop}
    (h : Spells text ts AnyNext) (h' : Spells text' ts' next) :
    Spells (text ++ text') (ts ++ ts') next where
  quiet := h.quiet.append h'.quiet
  cut rest hrest := by
    rw [List.append_assoc, h.cut _ (fun _ _ => trivial), h'.cut rest hrest, Option.map_map]
    congr 1
    funext ls
    simp

/-! ### Texts on one line -/

theorem newline_not_mem_of_isWordPart {text : List Char} (h : ∀ c ∈ text, isWordPart c = true) :
    '\n' ∉ text := by
  intro hmem
  exact absurd (h _ hmem) (by decide)

theorem isWord_parts {word : List Char} (h : isWord word = true) :
    ∀ c ∈ word, isWordPart c = true := by
  cases word with
  | nil => cases h
  | cons d rest =>
    rw [isWord, Bool.and_eq_true, List.all_eq_true] at h
    intro c hc
    rcases List.mem_cons.mp hc with rfl | hc
    · exact isWordPart_of_isWordStart h.1
    · exact h.2 c hc

/-! ### Types -/

def typeFollowers : List Char :=
  [' ', ')', '*', '[']

structure TypeText (text : String) : Prop where
  spells : Spells text.toList (lexemesOf text) (· ∈ typeFollowers)
  starts : Starts text.toList AnyNext
  form : TypeForm (lexemesOf text)
  unbroken : '\n' ∉ text.toList

theorem isSpecified_nested {tagged : Bool} {words : List Lexeme}
    (h : isSpecified tagged words = true) : Nested isPlain words := by
  induction words generalizing tagged with
  | nil => exact .nil
  | cons t words ih =>
    cases t with
    | word w =>
      rw [isSpecified] at h
      split at h
      · exact .token rfl rfl (ih h)
      · cases h
    | _ => cases h

theorem TypeForm.nested {ts : List Lexeme} (h : TypeForm ts) : Nested isPlain ts := by
  obtain ⟨stars, hwords, -⟩ := h
  have hstars : Nested isPlain (List.replicate stars (.mark .star)) := by
    induction stars with
    | zero => exact .nil
    | succ stars ih => exact .token rfl rfl ih
  exact (isSpecified_nested hwords).append hstars

theorem TypeForm.star {ts : List Lexeme} (h : TypeForm ts) :
    TypeForm (ts ++ [Lexeme.mark .star]) := by
  obtain ⟨stars, hwords, hne⟩ := h
  rw [List.append_assoc, ← List.replicate_succ']
  exact .mk (stars + 1) hwords hne

/-- Words with blanks between them are cut into just these words. -/
theorem spells_words {w : String} {ws : List String}
    (h : ∀ v ∈ w :: ws, isWord v.toList = true) :
    Spells (" ".intercalate (w :: ws)).toList ((w :: ws).map Lexeme.word) (endsWord · = true) ∧
      Starts (" ".intercalate (w :: ws)).toList AnyNext ∧
      '\n' ∉ (" ".intercalate (w :: ws)).toList := by
  have hword := h w (by simp)
  have hstarts : Starts w.toList AnyNext := (isWord_starts hword).mono fun _ _ => trivial
  have hunbroken := newline_not_mem_of_isWordPart (isWord_parts hword)
  induction ws generalizing w with
  | nil =>
    rw [String.intercalate_singleton]
    exact ⟨spells_word hword, hstarts, hunbroken⟩
  | cons v ws ih =>
    have hv := h v (by simp)
    obtain ⟨hspells, hnext, hlast⟩ := ih (fun u hu => h u (List.mem_cons_of_mem _ hu)) hv
      ((isWord_starts hv).mono fun _ _ => trivial)
      (newline_not_mem_of_isWordPart (isWord_parts hv))
    rw [String.intercalate_cons_cons, String.toList_append, String.toList_append, List.append_assoc]
    refine ⟨?_, hstarts.append _, ?_⟩
    · exact (spells_word hword).append (spells_blank.append hspells hnext)
        (starts_cons (by decide) _)
    · exact List.not_mem_append hunbroken (List.not_mem_append (by decide) hlast)

theorem typeText_words {w : String} {ws : List String} (h : ∀ v ∈ w :: ws, isWord v.toList = true)
    (hspecified : isSpecified false ((w :: ws).map Lexeme.word) = true) :
    TypeText (" ".intercalate (w :: ws)) := by
  obtain ⟨hspells, hstarts, hunbroken⟩ := spells_words h
  have hform := TypeForm.mk 0 hspecified (by simp)
  rw [List.replicate_zero, List.append_nil] at hform
  have hts := hspells.lexemesOf_eq
  constructor
  · rw [hts]
    exact hspells.mono (List.all_eq_true.mp (by decide))
  · exact hstarts
  · rw [hts]
    exact hform
  · exact hunbroken

theorem spells_star : Spells ['*'] [.mark .star] (· ∈ typeFollowers) := by
  apply Spells.of_piece (some (.mark .star)) (quiet_of_plain (by decide)) (by simp)
  intro rest h
  cases rest with
  | nil => rfl
  | cons c rest =>
    have hall : (typeFollowers.all fun d => !Mark.later.contains d) = true := by decide
    have hlater : c ∉ Mark.later := by
      have hnot := List.all_eq_true.mp hall c (h c rfl)
      simpa using hnot
    exact (atFront?_of_beginsMark (by decide) (c :: rest)).trans
      (congrArg _ (Mark.atFront?_append hlater '*' [] rest))

/-- A star behind the text of a type makes the text of one. -/
theorem TypeText.star {text : String} (h : TypeText text) : TypeText (text ++ "*") := by
  have hspells : Spells (text ++ "*").toList (lexemesOf text ++ [Lexeme.mark .star])
      (· ∈ typeFollowers) := by
    rw [String.toList_append]
    exact h.spells.append spells_star (starts_cons (by decide) _)
  have hts := hspells.lexemesOf_eq
  constructor
  · rw [hts]
    exact hspells
  · rw [String.toList_append]
    exact h.starts.append _
  · rw [hts]
    exact h.form.star
  · rw [String.toList_append]
    exact List.not_mem_append h.unbroken (by decide)

/-- The scalars that generated code knows: their words, and the stars behind
them. -/
def scalars : List (List String × Nat) :=
  [(["signed", "char"], 0), (["short"], 0), (["int"], 0), (["long", "long"], 0),
   (["unsigned", "char"], 0), (["unsigned", "short"], 0), (["unsigned", "int"], 0),
   (["unsigned", "long", "long"], 0), (["float"], 0), (["double"], 0), (["char"], 0),
   (["const", "char"], 1)]

def scalarText (words : List String) : Nat → String
  | 0 => " ".intercalate words
  | stars + 1 => scalarText words stars ++ "*"

/-- A type that can be written in C: its scalars are known, and the names of its
structs are identifiers. -/
def isWritable : CType → Bool
  | .void => true
  | .named name => scalars.any fun scalar => name == scalarText scalar.1 scalar.2
  | .struct name => isName name
  | .ptr target => isWritable target
  | .array elem _ => isWritable elem

theorem typeText_scalar {w : String} {ws : List String}
    (h : ∀ v ∈ w :: ws, isWord v.toList = true)
    (hspecified : isSpecified false ((w :: ws).map Lexeme.word) = true) (stars : Nat) :
    TypeText (scalarText (w :: ws) stars) := by
  induction stars with
  | zero => exact typeText_words h hspecified
  | succ stars ih => exact ih.star

theorem typeText_named {name : String} (h : isWritable (.named name) = true) : TypeText name := by
  have hall : ∀ scalar ∈ scalars, scalar.1 ≠ [] ∧
      (∀ v ∈ scalar.1, isWord v.toList = true) ∧
        isSpecified false (scalar.1.map Lexeme.word) = true := by decide
  obtain ⟨scalar, hmem, hname⟩ := List.any_eq_true.mp h
  obtain ⟨hne, hwords, hspecified⟩ := hall scalar hmem
  obtain ⟨w, ws, hcons⟩ := List.exists_cons_of_ne_nil hne
  rw [hcons] at hwords hspecified
  rw [eq_of_beq hname, hcons]
  exact typeText_scalar hwords hspecified scalar.2

theorem typeText_struct {name : String} (h : isName name = true) :
    TypeText ("struct " ++ name) := by
  rw [isName, Bool.and_eq_true, Bool.not_eq_true'] at h
  have htext : "struct " ++ name = " ".intercalate ["struct", name] := by
    rw [String.intercalate_cons_cons, String.intercalate_singleton]
    rfl
  rw [htext]
  apply typeText_words
  · simp only [List.forall_mem_cons]
    exact ⟨by decide, h.1, by simp⟩
  · simp [isSpecified, specifier?, h.2]

theorem typeText_render {t : CType} (h : isWritable t = true) : TypeText t.render := by
  induction t with
  | void =>
    have hvoid : TypeText (" ".intercalate ["void"]) := typeText_words (by decide) (by decide)
    exact hvoid
  | named name => exact typeText_named h
  | struct name => exact typeText_struct h
  | ptr target ih => exact (ih h).star
  | array elem len ih => exact (ih h).star

/-! ### Declarations -/

theorem isWritable_base {t : CType} (h : isWritable t = true) : isWritable t.base = true := by
  induction t with
  | array elem len ih => exact ih h
  | _ => exact h

theorem toList_toString (n : Nat) : (toString n).toList = Nat.toDigits 10 n := by
  rw [Nat.toString_eq_ofList_toDigits, String.toList_ofList]

theorem newline_not_mem_toDigits (n : Nat) : '\n' ∉ Nat.toDigits 10 n := by
  apply newline_not_mem_of_isWordPart
  exact fun c hc => isWordPart_of_isDigit (List.all_eq_true.mp (all_isDigit_toDigits n) c hc)

structure DimsText (text : String) : Prop where
  spells : Spells text.toList (lexemesOf text) AnyNext
  starts : text.toList = [] ∨ Starts text.toList (· = '[')
  nested : Nested (· == .mark .lbracket) (lexemesOf text)
  unbroken : '\n' ∉ text.toList

theorem DimsText.spells_cons {text : String} (h : DimsText text) (len : Nat) :
    Spells ("[" ++ toString len ++ "]" ++ text).toList
      (.mark .lbracket :: ([.number (Nat.toDigits 10 len)] ++ .mark .rbracket :: lexemesOf text))
      AnyNext := by
  have hnumber := isNumber_toDigits len
  have hinner : Listed (toString len).toList [.number (Nat.toDigits 10 len)] := by
    rw [toList_toString]
    exact (Shown.number hnumber.1 hnumber.2).listed
  have hgroup := hinner.enclosed ('[', .lbracket) (']', .rbracket) (by decide) (by decide)
    (by decide)
  have hchars : ("[" ++ toString len ++ "]" ++ text).toList =
      (['['] ++ ((toString len).toList ++ [']'])) ++ text.toList := by
    simp
  rw [hchars]
  exact hgroup.append_any h.spells

/-- One more dimension in brackets makes dimensions. -/
theorem DimsText.cons {text : String} (h : DimsText text) (len : Nat) :
    DimsText ("[" ++ toString len ++ "]" ++ text) := by
  have hchars : ("[" ++ toString len ++ "]" ++ text).toList =
      (['['] ++ ((toString len).toList ++ [']'])) ++ text.toList := by
    simp
  have hnested : Nested (· == Lexeme.mark .lbracket) (.mark .lbracket ::
      ([.number (Nat.toDigits 10 len)] ++ .mark .rbracket :: lexemesOf text)) :=
    .group rfl rfl (.token rfl rfl .nil) h.nested
  have hspells := h.spells_cons len
  have hts := hspells.lexemesOf_eq
  constructor
  · rw [hts]
    exact hspells
  · rw [hchars]
    exact .inr ⟨'[', _, rfl, rfl⟩
  · rw [hts]
    exact hnested
  · rw [hchars, toList_toString]
    apply List.not_mem_append _ h.unbroken
    apply List.not_mem_append (by decide)
    exact List.not_mem_append (newline_not_mem_toDigits len) (by decide)

theorem dimsText (t : CType) : DimsText t.dims := by
  induction t with
  | array elem len ih => exact ih.cons len
  | _ => exact ⟨spells_nil _, .inl rfl, .nil, by simp [CType.dims]⟩

def declared (t : CType) (name : String) (init : Option (List Lexeme)) : CDecl where
  type := lexemesOf t.base.render
  name
  dims := lexemesOf t.dims
  init

theorem declared_tidy {types : List String} {t : CType} (ht : isWritable t = true) {name : String}
    (hname : isFree types name = true) {init : Option (List Lexeme)}
    (hinit : ∀ e ∈ init, Nested isInner e) : (declared t name init).Tidy types where
  type := (typeText_render (isWritable_base ht)).form
  name := hname
  dims := (dimsText t).nested
  init := hinit

/-- A name behind its type and before its dimensions. -/
theorem spells_declarator {type name dims : String} {ts : List Lexeme}
    (htype : Spells type.toList ts (· ∈ typeFollowers)) (hname : isWord name.toList = true)
    (hdims : DimsText dims) :
    Spells (type ++ " " ++ name ++ dims).toList (ts ++ .word name :: lexemesOf dims)
      (endsWord · = true) := by
  have hword : Spells (name.toList ++ dims.toList) ([.word name] ++ lexemesOf dims)
      (endsWord · = true) := by
    rcases hdims.starts with hempty | hstarts
    · have hnone : lexemesOf dims = [] := by
        rw [lexemesOf, lexemes?, hempty]
        rfl
      rw [hempty, hnone, List.append_nil, List.append_nil]
      exact spells_word hname
    · have hends : Starts dims.toList (endsWord · = true) := by
        apply hstarts.mono
        rintro _ rfl
        decide
      exact (spells_word hname).append (hdims.spells.mono fun _ _ => trivial) hends
  have hchars : (type ++ " " ++ name ++ dims).toList =
      type.toList ++ ([' '] ++ (name.toList ++ dims.toList)) := by
    simp
  rw [hchars]
  exact htype.append (spells_blank.append_any hword) (starts_cons (by decide) _)

/-- A declaration is cut into the tokens of its type around its name. -/
theorem spells_declare {t : CType} (ht : isWritable t = true) {name : String}
    (hname : isWord name.toList = true) :
    Spells (t.declare name).toList (declared t name none).tokens (endsWord · = true) ∧
      Starts (t.declare name).toList AnyNext ∧ '\n' ∉ (t.declare name).toList := by
  have htype := typeText_render (isWritable_base ht)
  have hdims := dimsText t
  have htokens : (declared t name none).tokens =
      lexemesOf t.base.render ++ .word name :: lexemesOf t.dims := by
    simp [CDecl.tokens, declared]
  have hchars : (t.declare name).toList =
      t.base.render.toList ++ ([' '] ++ (name.toList ++ t.dims.toList)) := by
    simp [CType.declare]
  rw [htokens]
  refine ⟨spells_declarator htype.spells hname hdims, ?_, ?_⟩
  · rw [hchars]
    exact htype.starts.append _
  · rw [hchars]
    apply List.not_mem_append htype.unbroken
    apply List.not_mem_append (by decide)
    exact List.not_mem_append (newline_not_mem_of_isWordPart (isWord_parts hname)) hdims.unbroken

end StagedCompiler.CSyntax
