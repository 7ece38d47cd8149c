import StagedCompiler.Proofs.CSyntax.TypeSpelling
import StagedCompiler.Target.Expr

/-!
The texts of generated expressions as runs of tokens. A phrase stands on one
line, its brackets are paired, no separator and no assignment stands outside of
them, and it does not start like a declaration. So wherever a statement holds a
phrase, its ends are found without a look inside. Literals in braces are
phrases if a cast stands before them, and initializers without one.
-/

namespace StagedCompiler.CSyntax

structure Phrase (types : List String) (text : String) (more : List Char) : Prop where
  shown : Shown text.toList (lexemesOf text) more
  nested : Nested isPlain (lexemesOf text)
  leads : leads types (lexemesOf text) = true
  unbroken : '\n' ∉ text.toList

/-- The text may stand behind the sign of a declaration. -/
structure Initializer (text : String) : Prop where
  spells : Spells text.toList (lexemesOf text) (· ∈ followers)
  starts : Starts text.toList AnyNext
  nested : Nested isPlain (lexemesOf text)
  unbroken : '\n' ∉ text.toList

/-- The text may stand between commas. -/
structure Entry (text : String) : Prop where
  spells : Spells text.toList (lexemesOf text) (· ∈ followers)
  starts : Starts text.toList AnyNext
  nested : Nested (fun _ => true) (lexemesOf text)
  unbroken : '\n' ∉ text.toList

/-- The text may stand between brackets. -/
structure Entries (text : String) : Prop where
  listed : Listed text.toList (lexemesOf text)
  nested : Nested (fun _ => true) (lexemesOf text)
  unbroken : '\n' ∉ text.toList

theorem Phrase.initializer {types : List String} {text : String} {more : List Char}
    (h : Phrase types text more) : Initializer text :=
  ⟨h.shown.spells_before, h.shown.starts_any, h.nested, h.unbroken⟩

theorem Initializer.entry {text : String} (h : Initializer text) : Entry text :=
  ⟨h.spells, h.starts, h.nested.inside, h.unbroken⟩

theorem Entry.entries {text : String} (h : Entry text) : Entries text :=
  ⟨.inr ⟨h.spells, h.starts⟩, h.nested, h.unbroken⟩

theorem Phrase.entry {types : List String} {text : String} {more : List Char}
    (h : Phrase types text more) : Entry text :=
  h.initializer.entry

theorem Nested.enclose {p : Lexeme → Bool} {m c : Mark} {ts : List Lexeme}
    (hcloser : closer? m = some c) (hp : p (.mark m) = true) (h : Nested (fun _ => true) ts) :
    Nested p (.mark m :: (ts ++ [Lexeme.mark c])) :=
  .group hcloser hp h .nil

/-! ### Lists -/

section

variable {α : Type} {f : α → String}

theorem nested_separated {g : α → List Lexeme} {xs : List α}
    (h : ∀ x ∈ xs, Nested (fun _ => true) (g x)) :
    Nested (fun _ => true) ([Lexeme.mark .comma].intercalate (xs.map g)) := by
  induction xs with
  | nil => exact .nil
  | cons x xs ih =>
    have hrest := ih fun y hy => h y (List.mem_cons_of_mem _ hy)
    cases xs with
    | nil =>
      rw [List.map_singleton, List.intercalate_singleton]
      exact h x (by simp)
    | cons y ys =>
      simp only [List.map_cons, List.intercalate_cons_cons, List.append_assoc] at hrest ⊢
      exact (h x (by simp)).append (.token rfl rfl hrest)

theorem unbroken_separated {xs : List α} (h : ∀ x ∈ xs, '\n' ∉ (f x).toList) :
    '\n' ∉ (", ".intercalate (xs.map f)).toList := by
  induction xs with
  | nil => simp
  | cons x xs ih =>
    have hrest := ih fun y hy => h y (List.mem_cons_of_mem _ hy)
    cases xs with
    | nil =>
      rw [List.map_singleton, String.intercalate_singleton]
      exact h x (by simp)
    | cons y ys =>
      simp only [List.map_cons, String.intercalate_cons_cons, String.toList_append] at hrest ⊢
      exact List.not_mem_append (List.not_mem_append (h x (by simp)) (by decide)) hrest

theorem entry_separated (x : α) (xs : List α) (h : ∀ y ∈ x :: xs, Entry (f y)) :
    Entry (", ".intercalate ((x :: xs).map f)) := by
  obtain ⟨hspells, hstarts⟩ := spells_separated (g := fun y => lexemesOf (f y)) x xs
    fun y hy => ⟨(h y hy).spells, (h y hy).starts⟩
  have hts := hspells.lexemesOf_eq
  constructor
  · rw [hts]
    exact hspells
  · exact hstarts
  · rw [hts]
    exact nested_separated fun y hy => (h y hy).nested
  · exact unbroken_separated fun y hy => (h y hy).unbroken

theorem entries_separated {xs : List α} (h : ∀ y ∈ xs, Entry (f y)) :
    Entries (", ".intercalate (xs.map f)) := by
  cases xs with
  | nil => exact ⟨.inl ⟨rfl, rfl⟩, .nil, by simp⟩
  | cons x xs => exact (entry_separated x xs h).entries

end

/-- Blanks may stand around an entry. -/
theorem Entry.padded {text : String} (h : Entry text) : Entry (" " ++ text ++ " ") := by
  have hchars : (" " ++ text ++ " ").toList = [' '] ++ (text.toList ++ [' ']) := by simp
  have hspells : Spells (" " ++ text ++ " ").toList (lexemesOf text) (· ∈ followers) := by
    have hboth := spells_blank.append_any
      (h.spells.append spells_blank (starts_cons (by decide) _))
    rw [List.append_nil, List.nil_append] at hboth
    rw [hchars]
    exact hboth.mono fun _ _ => trivial
  have hts := hspells.lexemesOf_eq
  constructor
  · rw [hts]
    exact hspells
  · rw [hchars]
    exact starts_cons trivial _
  · rw [hts]
    exact h.nested
  · rw [hchars]
    exact List.not_mem_append (by decide) (List.not_mem_append h.unbroken (by decide))

/-! ### Forms of phrases -/

section

variable {types : List String} {text lhs rhs : String} {more lhsMore rhsMore : List Char}

theorem Phrase.of_shown {chars : List Char} {ts : List Lexeme} (hshown : Shown chars ts more)
    (htext : text.toList = chars) (hnested : Nested isPlain ts)
    (hleads : CSyntax.leads types ts = true) (hunbroken : '\n' ∉ chars) :
    Phrase types text more := by
  rw [← htext] at hshown hunbroken
  have hts := lexemesOf_eq hshown
  rw [← hts] at hshown hnested hleads
  exact ⟨hshown, hnested, hleads, hunbroken⟩

def isUsable (types : List String) (name : String) : Bool :=
  isWord name.toList && isFree types name

theorem phrase_name {name : String} (h : isUsable types name = true) :
    Phrase types name fieldMarks := by
  rw [isUsable, Bool.and_eq_true] at h
  exact .of_shown (.name h.1) rfl (.token rfl rfl .nil) h.2
    (newline_not_mem_of_isWordPart (isWord_parts h.1))

theorem newline_not_mem_numberTail {last : Char} {rest : List Char}
    (h : numberTail last rest = rest) : '\n' ∉ rest := by
  induction rest generalizing last with
  | nil => simp
  | cons c rest ih =>
    rw [numberTail] at h
    have hc : c ≠ '\n' := by
      rintro rfl
      simp [isWordPart] at h
    have hrest : '\n' ∉ rest := by
      split at h
      · exact ih (List.tail_eq_of_cons_eq h)
      · split at h
        · exact ih (List.tail_eq_of_cons_eq h)
        · cases h
    simp [hc.symm, hrest]

/-- A number stands on one line. -/
theorem newline_not_mem_of_isNumber {text : List Char} (h : isNumber text = true) :
    '\n' ∉ text := by
  cases text with
  | nil => simp
  | cons c rest =>
    rw [isNumber, Bool.and_eq_true, beq_iff_eq] at h
    have hc : c ≠ '\n' := by
      rintro rfl
      exact absurd h.1 (by decide)
    simp [hc.symm, newline_not_mem_numberTail h.2]

theorem phrase_number (hquiet : Quiet text.toList) (hnumber : isNumber text.toList = true) :
    Phrase types text [] :=
  .of_shown (.number hquiet hnumber) rfl (.token rfl rfl .nil) rfl
    (newline_not_mem_of_isNumber hnumber)

theorem newline_not_mem_escape (quote b : UInt8) : '\n' ∉ Target.Literal.escape quote b := by
  have hdigit (n : Nat) : '\n' ≠ Target.Literal.octalDigit n := by
    have hall : ∀ k < 8, '\n' ≠ Char.ofNat (48 + k) := by decide
    exact hall (n % 8) (Nat.mod_lt n (by decide))
  have hchar (hb : b ≠ 10) : '\n' ≠ Char.ofNat b.toNat := by
    intro hline
    have htoNat := congrArg Char.toNat hline
    rw [Text.toNat_ofNat_byte] at htoNat
    exact hb (UInt8.toNat_inj.mp htoNat.symm)
  rw [Target.Literal.escape]
  split_ifs with hn
  · decide
  · decide
  · decide
  · decide
  · simp [hchar hn]
  · simp [hchar hn]
  · simp [hdigit]

theorem phrase_string {content : String} (h : trigraphFree content.toList = true) :
    Phrase types (Target.Literal.string content) fieldMarks := by
  apply Phrase.of_shown (.string h) rfl (.token rfl rfl .nil) rfl
  simp only [Target.Literal.string, String.toList_append, String.toList_ofList, List.mem_append,
    List.mem_flatMap, not_or, not_exists, not_and]
  exact ⟨⟨by decide, fun b _ => newline_not_mem_escape _ b⟩, by decide⟩

theorem phrase_char (value : UInt8) : Phrase types (Target.Literal.char value) fieldMarks := by
  apply Phrase.of_shown (.char value) rfl (.token rfl rfl .nil) rfl
  simp only [Target.Literal.char, String.toList_append, String.toList_ofList]
  exact List.not_mem_append (List.not_mem_append (by decide) (newline_not_mem_escape _ _))
    (by decide)

/-- An operation, with parentheses or without. -/
theorem Phrase.operation (hlhs : Phrase types lhs lhsMore) (hrhs : Phrase types rhs rhsMore)
    (op : BinaryOp) : Initializer (lhs ++ " " ++ op.text ++ " " ++ rhs) := by
  have hchars : (lhs ++ " " ++ op.text ++ " " ++ rhs).toList =
      lhs.toList ++ ([' '] ++ (op.text.toList ++ ([' '] ++ rhs.toList))) := by
    simp
  have hspells := hlhs.shown.operation hrhs.shown op
  rw [← hchars] at hspells
  have hts := hspells.lexemesOf_eq
  have hop : isBracket (.mark (binaryMark op)) = false ∧ isPlain (.mark (binaryMark op)) = true ∧
      '\n' ∉ op.text.toList := by
    cases op <;> decide
  constructor
  · rw [hts]
    exact hspells
  · rw [hchars]
    exact hlhs.shown.starts_any.append _
  · rw [hts]
    exact hlhs.nested.append (.token hop.1 hop.2.1 hrhs.nested)
  · rw [hchars]
    apply List.not_mem_append hlhs.unbroken
    apply List.not_mem_append (by decide)
    apply List.not_mem_append hop.2.2
    exact List.not_mem_append (by decide) hrhs.unbroken

theorem phrase_paren (h : Entries text) : Phrase types ("(" ++ text ++ ")") fieldMarks := by
  apply Phrase.of_shown (Shown.paren h.listed) (by simp)
  · exact .enclose rfl rfl h.nested
  · rfl
  · exact List.not_mem_append (by decide) (List.not_mem_append h.unbroken (by decide))

theorem phrase_binary (hlhs : Phrase types lhs lhsMore) (hrhs : Phrase types rhs rhsMore)
    (op : BinaryOp) :
    Phrase types ("(" ++ lhs ++ " " ++ op.text ++ " " ++ rhs ++ ")") fieldMarks := by
  have hparen : Phrase types _ fieldMarks := phrase_paren (hlhs.operation hrhs op).entry.entries
  simpa only [String.append_assoc] using hparen

theorem phrase_unary (h : Phrase types text more) (op : UnaryOp) :
    Phrase types ("(" ++ op.text ++ text ++ ")") fieldMarks := by
  have hop : isBracket (.mark (unaryMark op)) = false ∧ '\n' ∉ op.text.toList := by
    cases op <;> decide
  apply Phrase.of_shown (h.shown.unary op) (by simp)
  · exact .enclose rfl rfl (.token hop.1 rfl h.nested.inside)
  · rfl
  · apply List.not_mem_append (by decide)
    exact List.not_mem_append (List.not_mem_append hop.2 h.unbroken) (by decide)

theorem phrase_index (hbase : Phrase types lhs lhsMore) (hplace : Phrase types rhs rhsMore) :
    Phrase types (lhs ++ "[" ++ rhs ++ "]") fieldMarks := by
  apply Phrase.of_shown (hbase.shown.index hplace.shown) (by simp)
  · exact hbase.nested.append (.enclose rfl rfl hplace.nested.inside)
  · exact leads_append hbase.leads _
  · apply List.not_mem_append hbase.unbroken
    apply List.not_mem_append (by decide)
    exact List.not_mem_append hplace.unbroken (by decide)

theorem phrase_call (hcallee : Phrase types lhs lhsMore) (hargs : Entries rhs) :
    Phrase types (lhs ++ "(" ++ rhs ++ ")") fieldMarks := by
  apply Phrase.of_shown (hcallee.shown.call hargs.listed) (by simp)
  · exact hcallee.nested.append (.enclose rfl rfl hargs.nested)
  · exact leads_append hcallee.leads _
  · apply List.not_mem_append hcallee.unbroken
    apply List.not_mem_append (by decide)
    exact List.not_mem_append hargs.unbroken (by decide)

theorem phrase_member (hbase : Phrase types text fieldMarks) {name : String}
    (hname : isWord name.toList = true) (throughPtr : Bool) :
    Phrase types (text ++ (if throughPtr then "->" else ".") ++ name) fieldMarks := by
  apply Phrase.of_shown (hbase.shown.member hname throughPtr) (by simp)
  · apply hbase.nested.append
    cases throughPtr <;> exact .token rfl rfl (.token rfl rfl .nil)
  · exact leads_append hbase.leads _
  · apply List.not_mem_append hbase.unbroken
    apply List.not_mem_append
    · cases throughPtr <;> decide
    · exact newline_not_mem_of_isWordPart (isWord_parts hname)

end

/-! ### Literals in braces -/

structure Braces (text : String) : Prop where
  spells : Spells text.toList (lexemesOf text) AnyNext
  starts : Starts text.toList AnyNext
  nested : Nested isPlain (lexemesOf text)
  unbroken : '\n' ∉ text.toList

theorem Braces.initializer {text : String} (h : Braces text) : Initializer text :=
  ⟨h.spells.mono fun _ _ => trivial, h.starts, h.nested, h.unbroken⟩

theorem braces_entries {text : String} (h : Entries text) : Braces ("\x7b" ++ text ++ "\x7d") := by
  have hchars : ("\x7b" ++ text ++ "\x7d").toList = ['\x7b'] ++ (text.toList ++ ['\x7d']) := by simp
  have hspells := h.listed.enclosed ('\x7b', .lbrace) ('\x7d', .rbrace) (by decide) (by decide)
    (by decide)
  rw [← hchars] at hspells
  have hts := hspells.lexemesOf_eq
  constructor
  · rw [hts]
    exact hspells
  · rw [hchars]
    exact starts_cons trivial _
  · rw [hts]
    exact .enclose rfl rfl h.nested
  · rw [hchars]
    exact List.not_mem_append (by decide) (List.not_mem_append h.unbroken (by decide))

theorem spells_eq : Spells ['='] [.mark .eq] (· = ' ') := by
  apply Spells.of_piece (some (.mark .eq)) (quiet_of_plain (by decide)) (by simp)
  intro rest h
  cases rest with
  | nil => rfl
  | cons c rest =>
    have hc : c = ' ' := h c rfl
    rw [hc]
    rfl

/-- A sign between blanks. -/
theorem spells_between {left right : List Char} {ls rs : List Lexeme} {next next' : Char → Prop}
    {sign : List Char} {m : Mark} (hleft : Spells left ls next) (hblank : next ' ')
    (hsign : Spells sign [.mark m] (· = ' ')) (hstarts : Starts sign AnyNext)
    (hright : Spells right rs next') :
    Spells (left ++ ([' '] ++ (sign ++ ([' '] ++ right)))) (ls ++ .mark m :: rs) next' := by
  have hbehind := hsign.append (spells_blank.append_any hright) ⟨' ', _, rfl, rfl⟩
  exact hleft.append (spells_blank.append hbehind (hstarts.append _)) (starts_cons hblank _)

/-- A field with its value may stand between commas. -/
theorem entry_field {name value : String} (hname : isWord name.toList = true)
    (hvalue : Initializer value) : Entry ("." ++ name ++ " = " ++ value) := by
  have hchars : ("." ++ name ++ " = " ++ value).toList =
      ['.'] ++ (name.toList ++ ([' '] ++ (['='] ++ ([' '] ++ value.toList)))) := by
    simp
  have hassign := spells_between (spells_word hname) (by decide) spells_eq (starts_cons trivial _)
    hvalue.spells
  have hspells := spells_dot.append hassign ((isWord_starts hname).append _)
  rw [← hchars] at hspells
  have hts := hspells.lexemesOf_eq
  constructor
  · rw [hts]
    exact hspells
  · rw [hchars]
    exact starts_cons trivial _
  · rw [hts]
    exact .token rfl rfl (.token rfl rfl (.token rfl rfl hvalue.nested.inside))
  · rw [hchars]
    apply List.not_mem_append (by decide)
    apply List.not_mem_append (newline_not_mem_of_isWordPart (isWord_parts hname))
    apply List.not_mem_append (by decide)
    exact List.not_mem_append (by decide) (List.not_mem_append (by decide) hvalue.unbroken)

/-- A literal behind its type in parentheses. -/
theorem phrase_cast {types : List String} {inner body : String} {ts : List Lexeme}
    {next : Char → Prop} (hinner : Spells inner.toList ts next) (hnext : next ')')
    (hnested : Nested (fun _ => true) ts) (hunbroken : '\n' ∉ inner.toList)
    (hbody : Braces body) :
    Phrase types ("(" ++ inner ++ ")" ++ body) fieldMarks := by
  have hopen := spells_single '(' .lparen (by decide)
  have hclose := spells_single ')' .rparen (by decide)
  have htype := hopen.append_any (hinner.append hclose (starts_cons hnext _))
  have hshown : Shown ((['('] ++ (inner.toList ++ [')'])) ++ body.toList)
      ((.mark .lparen :: (ts ++ [Lexeme.mark .rparen])) ++ lexemesOf body) fieldMarks := by
    constructor
    · exact (htype.append_any hbody.spells).mono fun _ _ => trivial
    · exact starts_cons (by decide) _
  apply Phrase.of_shown hshown (by simp)
  · exact (Nested.enclose rfl rfl hnested).append hbody.nested
  · rfl
  · apply List.not_mem_append _ hbody.unbroken
    exact List.not_mem_append (by decide) (List.not_mem_append hunbroken (by decide))

end StagedCompiler.CSyntax
