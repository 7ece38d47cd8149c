import StagedCompiler.Proofs.Lexer.LongestLexemes
import StagedCompiler.Proofs.Lexer.RoundTrip

/-!
Types and prefix operators written without a blank, but for the one behind
`mut`. Tokens that stand side by side are read as they are if no byte makes
another token of the one before it. Two ampersands side by side are one token,
from left to right, whatever they belong to.
-/

namespace StagedCompiler

/-! ### Tokens side by side -/

/-- The bytes are the spellings of the tokens, side by side or with a blank
between them, and no token runs into the next. -/
inductive Glued : List SourceToken → List UInt8 → Prop
  | done : Glued [] []
  | token {t : SourceToken} {ts : List SourceToken} {rest : List UInt8} :
      (∀ b ∈ rest.head?, t.joins b = false) → Glued ts rest →
        Glued (t :: ts) (Text.bytes t.spelling ++ rest)
  | blank {ts : List SourceToken} {rest : List UInt8} :
      (∀ b ∈ rest.head?, Byte.isBlank b = false) → Glued ts rest → Glued ts (32 :: rest)

namespace Glued

variable {ts : List SourceToken} {bytes : List UInt8}

theorem reads (h : Glued ts bytes) (names : Interner) :
    LexState.Reads names bytes
      (ts.map (SourceToken.kind fun text =>
        ((ts.foldl SourceToken.intern names).intern text).1))
      (ts.foldl SourceToken.intern names) := by
  induction h generalizing names with
  | done => exact LexState.reads_end names
  | token hrest _ ih => exact SourceToken.reads_cons hrest (ih _)
  | @blank ts rest hrest _ ih =>
    apply LexState.reads_of_dropWhile
    have hstay : rest.dropWhile Byte.isBlank = rest := by
      cases rest with
      | nil => rfl
      | cons b rest => exact List.dropWhile_cons_of_neg (by simp [hrest b rfl])
    rw [List.dropWhile_cons_of_pos (by decide), hstay]
    exact ih names

/-- Every token takes a byte. -/
theorem length_le (h : Glued ts bytes) : ts.length ≤ bytes.length := by
  induction h with
  | done => exact Nat.le_refl _
  | @token t ts rest _ _ ih =>
    have hpos := t.length_piece_pos
    rw [t.length_piece] at hpos
    rw [List.length_cons, List.length_append]
    omega
  | blank _ _ ih => exact Nat.le_succ_of_le ih

/-- What such a source is read as. -/
theorem lex {src : String} {limits : Limits} (h : Glued ts (Text.bytes src))
    (hroom : src.utf8ByteSize < limits.clamped.maxTokens) :
    ∃ (lexed : Lexed) (symbol : String → Symbol), StagedCompiler.lex src limits = .ok lexed ∧
      lexed.diagnostics = #[] ∧
      lexed.tokens.toList.map Token.kind = ts.map (SourceToken.kind symbol) ++ [TokenKind.eof] ∧
      ∀ text ∈ ts.filterMap SourceToken.text?, lexed.names.resolve? (symbol text) = some text := by
  have hle := h.length_le
  rw [length_bytes] at hle
  have hfits : ts.length < limits.clamped.maxTokens := by omega
  obtain ⟨read, hlex, hkinds⟩ := lex_of_reads (h.reads .empty) (by rwa [List.length_map])
  refine ⟨_, _, hlex, rfl, hkinds, fun text htext => ?_⟩
  exact SourceToken.resolve?_symbol htext .empty

end Glued

/-- An ampersand that may become a part of the next token. -/
def pendingMarks (pending : Bool) : List SourceToken :=
  if pending then [.punct .amp] else []

def pendingBytes (pending : Bool) : List UInt8 :=
  if pending then [38] else []

/-- What types and operands start with, references apart. -/
def Opening (b : UInt8) : Prop :=
  Byte.isWordPart b = true ∨ b = 91 ∨ b = 33 ∨ b = 45 ∨ b = 42

namespace Glued

variable {ts : List SourceToken} {rest : List UInt8}

/-- An ampersand stays alone before all but another one. -/
theorem pending (pending : Bool) (hrest : ∀ b ∈ rest.head?, Opening b) (h : Glued ts rest) :
    Glued (pendingMarks pending ++ ts) (pendingBytes pending ++ rest) := by
  cases pending with
  | false => exact h
  | true =>
    refine .token (t := .punct .amp) (fun b hb => ?_) h
    rcases hrest b hb with hpart | rfl | rfl | rfl | rfl
    · exact Punct.joins_part _ hpart
    all_goals decide

/-- Other marks stay alone before an ampersand as well. -/
theorem mark {mark : Punct} (hmark : mark ∈ [.colon, .eq, .bang, .minus, .star])
    (hrest : ∀ b ∈ rest.head?, Opening b ∨ b = 38) (h : Glued ts rest) :
    Glued (.punct mark :: ts) (Text.bytes mark.spelling ++ rest) := by
  refine .token (t := .punct mark) (fun b hb => ?_) h
  have hmarks : [Punct.colon, .eq, .bang, .minus, .star].all (fun mark =>
      [91, 33, 45, 42, 38].all fun b => !mark.joins b) = true := by decide
  have hsigns (b : UInt8) (hb : b ∈ [91, 33, 45, 42, 38]) : mark.joins b = false := by
    simpa using List.all_eq_true.mp (List.all_eq_true.mp hmarks mark hmark) b hb
  rcases hrest b hb with (hpart | rfl | rfl | rfl | rfl) | rfl
  · exact mark.joins_part hpart
  all_goals exact hsigns _ (by decide)

/-- The keyword with the blank behind it. -/
theorem mutable (hrest : ∀ b ∈ rest.head?, Opening b ∨ b = 38) (h : Glued ts rest) :
    Glued (.keyword .mutKw :: ts) (109 :: 117 :: 116 :: 32 :: rest) := by
  refine .token (t := .keyword .mutKw) (fun b hb => by cases hb; rfl) (.blank (fun b hb => ?_) h)
  rcases hrest b hb with (hpart | rfl | rfl | rfl | rfl) | rfl
  · exact Byte.isBlank_of_part hpart
  all_goals rfl

end Glued

theorem Identifier.head_text (x : Identifier) (rest : List UInt8) :
    ∀ b ∈ (Text.bytes x.text ++ rest).head?, Opening b := by
  obtain ⟨b, more, hbytes, hstart, -⟩ := mem_words.mpr x.shape
  intro d hd
  rw [hbytes] at hd
  cases hd
  exact .inl (Byte.isWordPart_of_start hstart)

/-! ### Types -/

theorem PrimType.not_keyword (p : PrimType) (word : Keyword) : word.spelling ≠ p.name := by
  have hall : ∀ p ∈ PrimType.all, Keyword.ofWord? p.name = none := by decide +kernel
  intro hsame
  have hnone := hall p (by cases p <;> decide)
  rw [← hsame, SourceToken.ofWord?_keyword] at hnone
  cases hnone

theorem PrimType.ofName?_name (p : PrimType) : PrimType.ofName? p.name = some p := by
  cases p <;> decide +kernel

def PrimType.identifier (p : PrimType) : Identifier :=
  ⟨p.name, by cases p <;> decide, p.not_keyword⟩

inductive TypeTree where
  | prim (p : PrimType)
  | custom (name : Identifier) (other : PrimType.ofName? name.text = none)
  | array (elem : TypeTree) (len : Nat) (small : len < 0x8000000000000000)
  | ref (mutable : Bool) (inner : TypeTree)

namespace TypeTree

def Reads : TypeTree → Tree → Prop
  | prim p, t => t.kind = .primType p
  | custom name _, t => t.kind = .namedType name.text
  | array elem len _, t => ∃ u, t.kind = .arrayType u len ∧ elem.Reads u
  | ref mutable inner, t => ∃ u, t.kind = .refType mutable u ∧ inner.Reads u

/-- The text without blanks, but for the one behind `mut`. -/
def text : TypeTree → String
  | prim p => p.name
  | custom name _ => name.text
  | array elem len _ => "[" ++ (elem.text ++ (";" ++ (toString len ++ "]")))
  | ref false inner => "&" ++ inner.text
  | ref true inner => "&mut " ++ inner.text

def isRef : TypeTree → Bool
  | ref _ _ => true
  | _ => false

/-- No `&` stands directly before another reference. -/
def Spaced : TypeTree → Prop
  | prim _ | custom _ _ => True
  | array elem _ _ => elem.Spaced
  | ref mutable inner => (mutable = false → inner.isRef = false) ∧ inner.Spaced

/-- The tokens of the text behind an ampersand that is still to be read, if
there is one. -/
def tokens : Bool → TypeTree → List SourceToken
  | pending, prim p => pendingMarks pending ++ [SourceToken.ident p.identifier]
  | pending, custom name _ => pendingMarks pending ++ [SourceToken.ident name]
  | pending, array elem len small =>
    pendingMarks pending ++ .punct .lbracket ::
      (tokens false elem ++ [SourceToken.punct .semicolon, .int len small, .punct .rbracket])
  | false, ref false inner => tokens true inner
  | true, ref false inner => .punct .andAnd :: tokens false inner
  | false, ref true inner => .punct .amp :: .keyword .mutKw :: tokens false inner
  | true, ref true inner => .punct .andAnd :: .keyword .mutKw :: tokens false inner

def size : TypeTree → Nat
  | prim _ | custom _ _ => 1
  | array elem _ _ => elem.size + 1
  | ref _ inner => inner.size + 1

variable {ts : List SourceToken} {rest : List UInt8}

/-- The text of a type starts with an opening or an ampersand. -/
theorem head_text (ty : TypeTree) (rest : List UInt8) :
    ∀ b ∈ (Text.bytes ty.text ++ rest).head?, Opening b ∨ b = 38 ∧ ty.isRef = true := by
  cases ty with
  | prim p => exact fun b hb => .inl (p.identifier.head_text rest b hb)
  | custom name _ => exact fun b hb => .inl (name.head_text rest b hb)
  | array elem len small =>
    have hbytes : Text.bytes (array elem len small).text = 91 :: _ := Text.bytes_append _ _
    intro b hb
    rw [hbytes] at hb
    cases hb
    exact .inl (.inr (.inl rfl))
  | ref mutable inner =>
    obtain ⟨more, hbytes⟩ : ∃ more, Text.bytes (ref mutable inner).text = 38 :: more := by
      cases mutable <;> exact ⟨_, Text.bytes_append _ _⟩
    intro b hb
    rw [hbytes] at hb
    cases hb
    exact .inr ⟨rfl, rfl⟩

theorem head_opening {ty : TypeTree} (hother : ty.isRef = false) (rest : List UInt8) :
    ∀ b ∈ (Text.bytes ty.text ++ rest).head?, Opening b := by
  intro b hb
  refine (ty.head_text rest b hb).resolve_right fun href => ?_
  rw [hother] at href
  cases href.2

theorem glued (pending : Bool) (ty : TypeTree) (h : Glued ts (59 :: rest)) :
    Glued (ty.tokens pending ++ ts)
      (pendingBytes pending ++ (Text.bytes ty.text ++ 59 :: rest)) := by
  -- Whether an ampersand is pending changes from case to case, so it is part of
  -- what the induction is over.
  induction ty generalizing pending ts rest with
  | prim p =>
    rw [tokens, List.append_assoc]
    exact Glued.pending pending (head_opening rfl _)
      (.token (t := .ident p.identifier) (fun b hb => by cases hb; rfl) h)
  | custom name other =>
    rw [tokens, List.append_assoc]
    have hhead : (custom name other).isRef = false := rfl
    exact Glued.pending pending (head_opening hhead _)
      (.token (t := .ident name) (fun b hb => by cases hb; rfl) h)
  | array elem len small ih =>
    have hbytes : Text.bytes (array elem len small).text ++ 59 :: rest = 91 ::
        (Text.bytes elem.text ++ 59 :: (Text.bytes (toString len) ++ 93 :: 59 :: rest)) := by
      simp [text, Text.bytes_append, show Text.bytes "[" = [91] from rfl,
        show Text.bytes ";" = [59] from rfl, show Text.bytes "]" = [93] from rfl]
    have hclose : Glued (.punct .rbracket :: ts) (93 :: 59 :: rest) :=
      .token (t := .punct .rbracket) (fun _ _ => rfl) h
    have hlen : Glued (.int len small :: .punct .rbracket :: ts)
        (Text.bytes (toString len) ++ 93 :: 59 :: rest) :=
      .token (t := .int len small) (fun b hb => by cases hb; rfl) hclose
    have hsemicolon : Glued (.punct .semicolon :: .int len small :: .punct .rbracket :: ts)
        (59 :: (Text.bytes (toString len) ++ 93 :: 59 :: rest)) :=
      .token (t := .punct .semicolon) (fun _ _ => rfl) hlen
    rw [tokens, List.append_assoc, List.cons_append, List.append_assoc]
    refine Glued.pending pending (head_opening rfl _) ?_
    rw [hbytes]
    exact .token (t := .punct .lbracket) (fun _ _ => rfl) (ih false hsemicolon)
  | ref mutable inner ih =>
    cases mutable with
    | false =>
      have hbytes : Text.bytes (ref false inner).text = 38 :: Text.bytes inner.text :=
        Text.bytes_append _ _
      rw [hbytes]
      cases pending with
      | false => exact ih true h
      | true => exact .token (t := .punct .andAnd) (fun _ _ => rfl) (ih false h)
    | true =>
      have hbytes : Text.bytes (ref true inner).text =
          38 :: 109 :: 117 :: 116 :: 32 :: Text.bytes inner.text := Text.bytes_append _ _
      have hmut : Glued (.keyword .mutKw :: (inner.tokens false ++ ts))
          (109 :: 117 :: 116 :: 32 :: (Text.bytes inner.text ++ 59 :: rest)) :=
        .mutable (fun b hb => (inner.head_text _ b hb).imp_right And.left) (ih false h)
      rw [hbytes]
      cases pending with
      | false => exact .token (t := .punct .amp) (fun b hb => by cases hb; rfl) hmut
      | true => exact .token (t := .punct .andAnd) (fun _ _ => rfl) hmut

end TypeTree

/-! ### Prefix operators -/

/-- An operator as a source has it, with the blank behind `mut`. -/
def UnaryOp.mark : UnaryOp → String
  | .not => "!"
  | .neg => "-"
  | .deref => "*"
  | .ref => "&"
  | .refMut => "&mut "

namespace PrefixChain

def Reads (x : Identifier) : List UnaryOp → Tree → Prop
  | [], t => t.kind = .ident x.text
  | op :: ops, t => ∃ u, t.kind = .unary op u ∧ Reads x ops u

/-- The text without blanks, but for the one behind `mut`. -/
def text (x : Identifier) : List UnaryOp → String
  | [] => x.text
  | op :: ops => op.mark ++ text x ops

/-- Every `&mut` stands directly behind an even number of `&`, where `odd` says
whether an odd number of them comes before the first operator. -/
def EvenRefs : Bool → List UnaryOp → Prop
  | _, [] => True
  | odd, .ref :: ops => EvenRefs (!odd) ops
  | odd, .refMut :: ops => odd = false ∧ EvenRefs false ops
  | _, .not :: ops | _, .neg :: ops | _, .deref :: ops => EvenRefs false ops

/-- The tokens of the text behind an ampersand that is still to be read, if
there is one. -/
def tokens (x : Identifier) : Bool → List UnaryOp → List SourceToken
  | pending, [] => pendingMarks pending ++ [SourceToken.ident x]
  | pending, .not :: ops => pendingMarks pending ++ .punct .bang :: tokens x false ops
  | pending, .neg :: ops => pendingMarks pending ++ .punct .minus :: tokens x false ops
  | pending, .deref :: ops => pendingMarks pending ++ .punct .star :: tokens x false ops
  | false, .ref :: ops => tokens x true ops
  | true, .ref :: ops => .punct .andAnd :: tokens x false ops
  | false, .refMut :: ops => .punct .amp :: .keyword .mutKw :: tokens x false ops
  | true, .refMut :: ops => .punct .andAnd :: .keyword .mutKw :: tokens x false ops

variable {x : Identifier} {ts : List SourceToken} {rest : List UInt8}

theorem head_text (x : Identifier) (ops : List UnaryOp) (rest : List UInt8) :
    ∀ b ∈ (Text.bytes (text x ops) ++ rest).head?, Opening b ∨ b = 38 := by
  cases ops with
  | nil => exact fun b hb => .inl (x.head_text rest b hb)
  | cons op ops =>
    intro b hb
    rw [text, Text.bytes_append, List.append_assoc] at hb
    cases op <;> cases hb <;> simp [Opening]

theorem glued (pending : Bool) (x : Identifier) (ops : List UnaryOp) (h : Glued ts (59 :: rest)) :
    Glued (tokens x pending ops ++ ts)
      (pendingBytes pending ++ (Text.bytes (text x ops) ++ 59 :: rest)) := by
  induction ops generalizing pending with
  | nil =>
    rw [tokens, List.append_assoc]
    exact Glued.pending pending (x.head_text _)
      (.token (t := .ident x) (fun b hb => by cases hb; rfl) h)
  | cons op ops ih =>
    have hhead := head_text x ops (59 :: rest)
    rw [text, Text.bytes_append, List.append_assoc]
    cases op with
    | not | neg | deref =>
      rw [tokens, List.append_assoc, List.cons_append]
      refine Glued.pending pending (fun b hb => ?_) (.mark (by decide) hhead (ih false))
      cases hb
      simp [Opening]
    | ref =>
      cases pending with
      | false => exact ih true
      | true => exact .token (t := .punct .andAnd) (fun _ _ => rfl) (ih false)
    | refMut =>
      have hmut : Glued (.keyword .mutKw :: (tokens x false ops ++ ts))
          (109 :: 117 :: 116 :: 32 :: (Text.bytes (text x ops) ++ 59 :: rest)) :=
        .mutable hhead (ih false)
      cases pending with
      | false => exact .token (t := .punct .amp) (fun b hb => by cases hb; rfl) hmut
      | true => exact .token (t := .punct .andAnd) (fun _ _ => rfl) hmut

end PrefixChain

/-! ### Sources -/

def plainName : Identifier :=
  ⟨"f", by decide, by intro word; cases word <;> decide⟩

theorem plainName_other : PrimType.ofName? plainName.text = none := by
  decide +kernel

/-- A function whose one statement declares a name; a colon or an equals sign
stands before the text. -/
def letSource (mark : Punct) (text : String) : String :=
  "fn f()\x7blet f" ++ (mark.spelling ++ (text ++ ";\x7d"))

def letEnd : List SourceToken :=
  [.punct .semicolon, .punct .rbrace]

def letTokens (mark : Punct) (tokens : List SourceToken) : List SourceToken :=
  .keyword .fnKw :: .ident plainName :: .punct .lparen :: .punct .rparen :: .punct .lbrace ::
    .keyword .letKw :: .ident plainName :: .punct mark :: (tokens ++ letEnd)

/-- The source around a text is glued if the text is. -/
theorem Glued.letSource {mark : Punct} {text : String} {tokens : List SourceToken}
    (hmark : mark ∈ [.colon, .eq])
    (hhead : ∀ b ∈ (Text.bytes text ++ [59, 125]).head?, Opening b ∨ b = 38)
    (h : ∀ {ts rest}, Glued ts (59 :: rest) →
      Glued (tokens ++ ts) (Text.bytes text ++ 59 :: rest)) :
    Glued (letTokens mark tokens) (Text.bytes (StagedCompiler.letSource mark text)) := by
  have hbytes : Text.bytes (StagedCompiler.letSource mark text) =
      [102, 110, 32, 102, 40, 41, 123, 108, 101, 116, 32, 102] ++
        (Text.bytes mark.spelling ++ (Text.bytes text ++ [59, 125])) := by
    simp only [StagedCompiler.letSource, Text.bytes_append]
    rfl
  have hend : Glued letEnd [59, 125] :=
    .token (t := .punct .semicolon) (fun _ _ => rfl)
      (.token (t := .punct .rbrace) (fun _ _ => rfl) .done)
  have hmarked : mark ∈ [.colon, .eq, .bang, .minus, .star] :=
    List.mem_append_left [Punct.bang, .minus, .star] hmark
  have hbody := Glued.mark hmarked hhead (h hend)
  have hname : Glued (.ident plainName :: .punct mark :: (tokens ++ letEnd))
      (102 :: (Text.bytes mark.spelling ++ (Text.bytes text ++ [59, 125]))) := by
    refine .token (t := .ident plainName) (fun b hb => ?_) hbody
    rcases List.mem_pair.mp hmark with rfl | rfl <;> cases hb <;> rfl
  rw [hbytes]
  exact .token (t := .keyword .fnKw) (fun b hb => by cases hb; rfl) <|
    .blank (fun b hb => by cases hb; rfl) <|
    .token (t := .ident plainName) (fun b hb => by cases hb; rfl) <|
    .token (t := .punct .lparen) (fun _ _ => rfl) <|
    .token (t := .punct .rparen) (fun _ _ => rfl) <|
    .token (t := .punct .lbrace) (fun _ _ => rfl) <|
    .token (t := .keyword .letKw) (fun b hb => by cases hb; rfl) <|
    .blank (fun b hb => by cases hb; rfl) hname

end StagedCompiler
