/-!
The tokens of C. A text is prepared first: trigraphs are replaced and spliced
lines are joined. What is left is cut from front to back into blanks, comments
and tokens, each as long as it can be. `Spells` says which tokens a text is cut
into if it stands in front of a character that its last token does not take in;
texts that are quiet stay as they are when they are prepared.
-/

namespace StagedCompiler.CSyntax

/-! ### Preparation -/

/-- The character that two question marks and a character stand for. -/
def trigraph? : Char → Option Char
  | '=' => some '#'
  | '/' => some '\\'
  | '\'' => some '^'
  | '(' => some '['
  | ')' => some ']'
  | '!' => some '|'
  | '<' => some '\x7b'
  | '>' => some '\x7d'
  | '-' => some '~'
  | _ => none

def trigraphAt? : List Char → Option Char
  | a :: b :: c :: _ => if a = '?' ∧ b = '?' then trigraph? c else none
  | _ => none

/-- A text with its trigraphs replaced, behind the first `skip` characters. -/
def replaceTrigraphs : Nat → List Char → List Char
  | _, [] => []
  | skip + 1, _ :: rest => replaceTrigraphs skip rest
  | 0, c :: rest =>
    match trigraphAt? (c :: rest) with
    | some d => d :: replaceTrigraphs 2 rest
    | none => c :: replaceTrigraphs 0 rest

/-- A text with its lines joined where a backslash ends one, behind the first
`skip` characters. -/
def joinLines : Nat → List Char → List Char
  | _, [] => []
  | skip + 1, _ :: rest => joinLines skip rest
  | 0, c :: rest =>
    if c = '\\' ∧ rest.head? = some '\n' then joinLines 1 rest else c :: joinLines 0 rest

def prepare (text : List Char) : List Char :=
  joinLines 0 (replaceTrigraphs 0 text)

/-! ### Tokens -/

inductive Mark where
  | lbracket | rbracket | lparen | rparen | lbrace | rbrace | dot | arrow | plusPlus | minusMinus
  | amp | star | plus | minus | tilde | bang | slash | percent | shl | shr | lt | gt | le | ge
  | eqEq | bangEq | caret | pipe | andAnd | orOr | question | colon | semicolon | ellipsis | eq
  | starEq | slashEq | percentEq | plusEq | minusEq | shlEq | shrEq | ampEq | caretEq | pipeEq
  | comma | hash | hashHash
deriving DecidableEq

/-- How the punctuators are spelled, longer spellings first. Some have two. -/
def Mark.spellings : List (List Char × Mark) :=
  [(['%', ':', '%', ':'], .hashHash), (['.', '.', '.'], .ellipsis), (['<', '<', '='], .shlEq),
   (['>', '>', '='], .shrEq), (['-', '>'], .arrow), (['+', '+'], .plusPlus),
   (['-', '-'], .minusMinus), (['<', '<'], .shl), (['>', '>'], .shr), (['<', '='], .le),
   (['>', '='], .ge), (['=', '='], .eqEq), (['!', '='], .bangEq), (['&', '&'], .andAnd),
   (['|', '|'], .orOr), (['*', '='], .starEq), (['/', '='], .slashEq), (['%', '='], .percentEq),
   (['+', '='], .plusEq), (['-', '='], .minusEq), (['&', '='], .ampEq), (['^', '='], .caretEq),
   (['|', '='], .pipeEq), (['#', '#'], .hashHash), (['<', ':'], .lbracket),
   ([':', '>'], .rbracket), (['<', '%'], .lbrace), (['%', '>'], .rbrace), (['%', ':'], .hash),
   (['['], .lbracket), ([']'], .rbracket), (['('], .lparen), ([')'], .rparen),
   (['\x7b'], .lbrace), (['\x7d'], .rbrace), (['.'], .dot), (['&'], .amp), (['*'], .star),
   (['+'], .plus), (['-'], .minus), (['~'], .tilde), (['!'], .bang), (['/'], .slash),
   (['%'], .percent), (['<'], .lt), (['>'], .gt), (['^'], .caret), (['|'], .pipe),
   (['?'], .question), ([':'], .colon), ([';'], .semicolon), (['='], .eq), ([','], .comma),
   (['#'], .hash)]

/-- The longest punctuator at the front of a text, with its spelling. -/
def Mark.atFront? (text : List Char) : Option (List Char × Mark) :=
  Mark.spellings.find? fun entry => entry.1.isPrefixOf text

inductive Lexeme where
  /-- An identifier or a keyword. -/
  | word (text : String)
  /-- A number in the sense of the preprocessor, whether or not it is a constant. -/
  | number (text : List Char)
  | string (content : List UInt8)
  | char (value : UInt8)
  | mark (m : Mark)
deriving DecidableEq

def isWordStart (c : Char) : Bool :=
  c.isAlpha || c == '_'

def isWordPart (c : Char) : Bool :=
  c.isAlphanum || c == '_'

def isBlank (c : Char) : Bool :=
  [' ', '\t', '\n', '\x0b', '\x0c'].contains c

/-- How far a comment goes, from behind its opening. -/
def commentLength? : List Char → Option Nat
  | [] => none
  | c :: rest =>
    if c = '*' ∧ rest.head? = some '/' then some 2 else (commentLength? rest).map (· + 1)

/-- What is left of a number behind the character `last`. A sign belongs to it
behind the letter of an exponent. -/
def numberTail (last : Char) : List Char → List Char
  | [] => []
  | c :: rest =>
    if isWordPart c || c == '.' then c :: numberTail c rest
    else if (c == '+' || c == '-') && ['e', 'E', 'p', 'P'].contains last then
      c :: numberTail c rest
    else []

def octalValue? (c : Char) : Option Nat :=
  if '0' ≤ c ∧ c ≤ '7' then some (c.toNat - 48) else none

/-- The value of up to three octal digits and how many there are, behind `seen`
digits with the value `done`. -/
def octalEscape (done seen : Nat) : List Char → Nat × Nat
  | [] => (done, seen)
  | c :: rest =>
    match octalValue? c with
    | some d => if seen < 3 then octalEscape (8 * done + d) (seen + 1) rest else (done, seen)
    | none => (done, seen)

def simpleEscape? : Char → Option Nat
  | 'n' => some 10
  | 'r' => some 13
  | 't' => some 9
  | 'a' => some 7
  | 'b' => some 8
  | 'f' => some 12
  | 'v' => some 11
  | '\\' => some 92
  | '"' => some 34
  | '\'' => some 39
  | '?' => some 63
  | _ => none

/-- The byte that an escape stands for and how many characters it takes behind
its backslash. Hexadecimal escapes and character names are not read. -/
def escape? : List Char → Option (Nat × Nat)
  | [] => none
  | c :: rest =>
    if (octalValue? c).isSome then
      if (octalEscape 0 0 (c :: rest)).1 < 256 then some (octalEscape 0 0 (c :: rest)) else none
    else (simpleEscape? c).map (·, 1)

/-- The bytes of a literal and its length with the closing quote, behind the
first `skip` characters. -/
def literal? (quote : Char) : Nat → List Char → Option (List UInt8 × Nat)
  | _, [] => none
  | skip + 1, _ :: rest => (literal? quote skip rest).map fun r => (r.1, r.2 + 1)
  | 0, c :: rest =>
    if c = quote then some ([], 1)
    else if c = '\n' then none
    else if c = '\\' then
      match escape? rest with
      | some (value, length) =>
        (literal? quote length rest).map fun r => (value.toUInt8 :: r.1, r.2 + 1)
      | none => none
    else if c.toNat < 128 then
      (literal? quote 0 rest).map fun r => (c.toNat.toUInt8 :: r.1, r.2 + 1)
    else none

/-- Words that change the literal that follows without a blank. -/
def isEncoding (word : List Char) : Bool :=
  [['L'], ['u'], ['U'], ['u', '8']].contains word

structure Piece where
  lexeme? : Option Lexeme
  length : Nat
deriving DecidableEq

/-- The piece at the front of a text. Literals with an encoding, literals of
several characters in single quotes, and characters outside the basic set are
not read. -/
def Piece.atFront? : List Char → Option Piece
  | [] => none
  | c :: rest =>
    if isBlank c then some ⟨none, 1⟩
    else if c = '/' ∧ rest.head? = some '/' then
      some ⟨none, ((c :: rest).takeWhile (· != '\n')).length⟩
    else if c = '/' ∧ rest.head? = some '*' then
      (commentLength? rest.tail).map fun n => ⟨none, n + 2⟩
    else if c.isDigit ∨ c = '.' ∧ rest.head?.any Char.isDigit then
      some ⟨some (.number (c :: numberTail c rest)), (numberTail c rest).length + 1⟩
    else if isWordStart c then
      let word := c :: rest.takeWhile isWordPart
      let next := rest.drop (rest.takeWhile isWordPart).length
      if isEncoding word && (next.head? == some '"' || next.head? == some '\'') then none
      else some ⟨some (.word (String.ofList word)), word.length⟩
    else if c = '"' then
      (literal? '"' 0 rest).map fun r => ⟨some (.string r.1), r.2 + 1⟩
    else if c = '\'' then
      match literal? '\'' 0 rest with
      | some ([value], length) => some ⟨some (.char value), length + 1⟩
      | _ => none
    else (Mark.atFront? (c :: rest)).map fun entry => ⟨some (.mark entry.2), entry.1.length⟩

/-- The tokens of a prepared text, behind the first `skip` characters. -/
def cut? : Nat → List Char → Option (List Lexeme)
  | _, [] => some []
  | skip + 1, _ :: rest => cut? skip rest
  | 0, c :: rest =>
    match Piece.atFront? (c :: rest) with
    | some piece => (cut? (piece.length - 1) rest).map (piece.lexeme?.toList ++ ·)
    | none => none

def lexemes? (text : String) : Option (List Lexeme) :=
  cut? 0 (prepare text.toList)

/-! ### Quiet texts -/

def trigraphFree : List Char → Bool
  | [] => true
  | c :: rest => (trigraphAt? (c :: rest)).isNone && trigraphFree rest

def spliceFree : List Char → Bool
  | [] => true
  | c :: rest => !(c == '\\' && rest.head? == some '\n') && spliceFree rest

/-- A text that preparation leaves as it is, whatever quiet text follows. -/
structure Quiet (text : List Char) : Prop where
  trigraphFree : trigraphFree text = true
  spliceFree : spliceFree text = true
  last : ∀ c ∈ text.getLast?, c ≠ '?' ∧ c ≠ '\\'

theorem replaceTrigraphs_eq {text : List Char} (h : trigraphFree text = true) :
    replaceTrigraphs 0 text = text := by
  induction text with
  | nil => rfl
  | cons c text ih =>
    rw [trigraphFree, Bool.and_eq_true, Option.isNone_iff_eq_none] at h
    rw [replaceTrigraphs, h.1, ih h.2]

/-- Without a backslash before the end of a line there is nothing to join. -/
theorem joinLines_eq {text : List Char} (h : spliceFree text = true) :
    joinLines 0 text = text := by
  induction text with
  | nil => rfl
  | cons c text ih =>
    have hfront : ¬(c = '\\' ∧ text.head? = some '\n') := by
      intro hboth
      simp [spliceFree, hboth] at h
    rw [spliceFree, Bool.and_eq_true] at h
    rw [joinLines, if_neg hfront, ih h.2]

theorem Quiet.prepare_eq {text : List Char} (h : Quiet text) : prepare text = text := by
  rw [prepare, replaceTrigraphs_eq h.trigraphFree, joinLines_eq h.spliceFree]

theorem quiet_nil : Quiet [] :=
  ⟨rfl, rfl, by simp⟩

theorem trigraphAt?_append {text : List Char} (more : List Char)
    (hnone : trigraphAt? text = none) (hlast : ∀ c ∈ text.getLast?, c ≠ '?') (hne : text ≠ []) :
    trigraphAt? (text ++ more) = none := by
  rcases text with _ | ⟨a, _ | ⟨b, _ | ⟨c, text⟩⟩⟩
  · exact absurd rfl hne
  · have ha : a ≠ '?' := hlast a rfl
    rcases more with _ | ⟨b, _ | ⟨c, more⟩⟩ <;> simp [trigraphAt?, ha]
  · have hb : b ≠ '?' := hlast b rfl
    rcases more with _ | ⟨c, more⟩ <;> simp [trigraphAt?, hb]
  · exact hnone

/-- Texts that preparation leaves alone may be joined. -/
theorem Quiet.append {text more : List Char} (h : Quiet text) (hmore : Quiet more) :
    Quiet (text ++ more) := by
  induction text with
  | nil => exact hmore
  | cons c text ih =>
    obtain ⟨htri, hsplice, hlast⟩ := h
    rw [CSyntax.trigraphFree, Bool.and_eq_true, Option.isNone_iff_eq_none] at htri
    rw [CSyntax.spliceFree, Bool.and_eq_true] at hsplice
    have hquiet : Quiet text := by
      constructor
      · exact htri.2
      · exact hsplice.2
      · intro d hd
        exact hlast d (by cases text <;> simp_all)
    have hrest := ih hquiet
    constructor
    · have hfront := trigraphAt?_append more htri.1 (fun d hd => (hlast d hd).1) (by simp)
      rw [List.cons_append] at hfront
      rw [List.cons_append, CSyntax.trigraphFree, hfront, hrest.trigraphFree]
      rfl
    · have hfront : (!(c == '\\' && (text ++ more).head? == some '\n')) = true := by
        cases text with
        | nil => simp [(hlast c rfl).2]
        | cons d text => exact hsplice.1
      rw [List.cons_append, CSyntax.spliceFree, hfront, hrest.spliceFree]
      rfl
    · intro d hd
      cases hmore' : more with
      | nil =>
        rw [hmore', List.append_nil] at hd
        exact hlast d hd
      | cons e more' =>
        apply hmore.last
        rw [List.getLast?_append] at hd
        simpa [hmore'] using hd

/-- A text without question marks and backslashes is quiet. -/
theorem quiet_of_plain {text : List Char}
    (hplain : (text.all fun c => c != '?' && c != '\\') = true) : Quiet text := by
  have h : ∀ c ∈ text, c ≠ '?' ∧ c ≠ '\\' := by
    simpa using hplain
  clear hplain
  constructor
  · induction text with
    | nil => rfl
    | cons c text ih =>
      have hfront : trigraphAt? (c :: text) = none := by
        rcases text with _ | ⟨a, _ | ⟨b, text⟩⟩ <;> simp [trigraphAt?, (h c (by simp)).1]
      rw [trigraphFree, hfront, ih fun d hd => h d (List.mem_cons_of_mem _ hd)]
      rfl
  · induction text with
    | nil => rfl
    | cons c text ih =>
      rw [spliceFree, ih fun d hd => h d (List.mem_cons_of_mem _ hd)]
      simp [(h c (by simp)).2]
  · intro c hc
    exact h c (List.mem_of_getLast? hc)

/-! ### Cutting -/

theorem cut?_skip (skipped rest : List Char) :
    cut? skipped.length (skipped ++ rest) = cut? 0 rest := by
  induction skipped with
  | nil => rfl
  | cons c skipped ih => exact ih

/-- The piece at the front is cut off, and the cutting goes on behind it. -/
theorem cut?_piece {text rest : List Char} {l : Option Lexeme} (hne : text ≠ [])
    (h : Piece.atFront? (text ++ rest) = some ⟨l, text.length⟩) :
    cut? 0 (text ++ rest) = (cut? 0 rest).map (l.toList ++ ·) := by
  cases text with
  | nil => exact absurd rfl hne
  | cons c text =>
    rw [List.cons_append] at h
    rw [List.cons_append, cut?, h]
    simp only [List.length_cons, Nat.add_sub_cancel, cut?_skip]

def Starts (text : List Char) (p : Char → Prop) : Prop :=
  ∃ c rest, text = c :: rest ∧ p c

/-- In front of a character that `next` allows, or at the end, the text is cut
into these tokens. -/
structure Spells (text : List Char) (lexemes : List Lexeme) (next : Char → Prop) : Prop where
  quiet : Quiet text
  cut (rest : List Char) (h : ∀ c ∈ rest.head?, next c) :
    cut? 0 (text ++ rest) = (cut? 0 rest).map (lexemes ++ ·)

namespace Spells

variable {text text' : List Char} {lexemes lexemes' : List Lexeme} {next next' : Char → Prop}

theorem append (h : Spells text lexemes next) (h' : Spells text' lexemes' next')
    (hstart : Starts text' next) : Spells (text ++ text') (lexemes ++ lexemes') next' where
  quiet := h.quiet.append h'.quiet
  cut rest hrest := by
    have hnext : ∀ c ∈ (text' ++ rest).head?, next c := by
      obtain ⟨c, more, rfl, hc⟩ := hstart
      simpa using hc
    rw [List.append_assoc, h.cut _ hnext, h'.cut rest hrest, Option.map_map]
    congr 1
    funext ls
    simp

theorem mono (h : Spells text lexemes next) (hnext : ∀ c, next' c → next c) :
    Spells text lexemes next' where
  quiet := h.quiet
  cut rest hrest := h.cut rest fun c hc => hnext c (hrest c hc)

/-- A whole text is cut into its tokens. -/
theorem lexemes?_eq {s : String} (h : Spells s.toList lexemes next) :
    lexemes? s = some lexemes := by
  have hcut := h.cut [] (by simp)
  rw [List.append_nil] at hcut
  rw [lexemes?, h.quiet.prepare_eq, hcut]
  simp [cut?]

/-- A text that is one piece, whatever allowed character follows. -/
theorem of_piece (piece : Option Lexeme) (hquiet : Quiet text) (hne : text ≠ [])
    (h : ∀ rest : List Char, (∀ c ∈ rest.head?, next c) →
      Piece.atFront? (text ++ rest) = some ⟨piece, text.length⟩) :
    Spells text piece.toList next where
  quiet := hquiet
  cut rest hrest := cut?_piece hne (h rest hrest)

end Spells

end StagedCompiler.CSyntax
