import StagedCompiler.Proofs.Lexer.LongestLexemes

/-!
String literals of a source. The lexer reads bytes, and a char literal that is
not closed can leave it inside of a character. A string literal starts with a
quote, though, which is a whole character wherever it stands. So the literal
can be read character by character as well: `LiteralBody` says which text the
characters between its quotes stand for, and the bytes that the lexer collects
are those of that text.
-/

namespace StagedCompiler

/-! ### The text of a literal -/

def unescapeChar (c : Char) : Char :=
  if c = 'n' then '\n'
  else if c = 'r' then '\r'
  else if c = 't' then '\t'
  else if c = '0' then '\x00'
  else c

/-- The characters between the quotes of a literal, and the text that they stand
for. A quote is among them only behind a backslash. -/
inductive LiteralBody : List Char → List Char → Prop
  | nil : LiteralBody [] []
  | plain {c : Char} {body text : List Char} : c ≠ '"' → c ≠ '\\' → LiteralBody body text →
      LiteralBody (c :: body) (c :: text)
  | escape (c : Char) {body text : List Char} : LiteralBody body text →
      LiteralBody ('\\' :: c :: body) (unescapeChar c :: text)

/-- Whether a literal is closed, what ends it, and what stands behind it. Without
a quote it goes on to the end of the source, where a backslash stands for
nothing. -/
inductive LiteralEnd : Bool → List Char → List Char → Prop
  | quote (behind : List Char) : LiteralEnd true ['"'] behind
  | missing : LiteralEnd false [] []
  | backslash : LiteralEnd false ['\\'] []

def StringAt (src : String) (start stop : Nat) (closed : Bool) (text : String) : Prop :=
  ∃ before body closing behind,
    src.toList = before ++ '"' :: (body ++ (closing ++ behind)) ∧
      start = (String.ofList before).utf8ByteSize ∧
      stop = (String.ofList (before ++ '"' :: (body ++ closing))).utf8ByteSize ∧
      LiteralBody body text.toList ∧ LiteralEnd closed closing behind

/-! ### Characters among bytes -/

namespace Text

def encode (chars : List Char) : List UInt8 :=
  chars.flatMap String.utf8EncodeChar

section

variable {c : Char} {b : UInt8} {bs : List UInt8} {chars more : List Char}

@[simp]
theorem encode_nil : encode [] = [] :=
  rfl

@[simp]
theorem encode_cons : encode (c :: chars) = String.utf8EncodeChar c ++ encode chars :=
  List.flatMap_cons

@[simp]
theorem encode_append : encode (chars ++ more) = encode chars ++ encode more :=
  List.flatMap_append

theorem bytes_ofList (chars : List Char) : bytes (String.ofList chars) = encode chars := by
  rw [bytes_eq, String.toList_ofList, encode]

theorem length_encode (chars : List Char) :
    (encode chars).length = (String.ofList chars).utf8ByteSize := by
  rw [← bytes_ofList, length_bytes]

/-- A byte of ASCII starts no other character than its own. -/
theorem utf8EncodeChar_ascii (h : String.utf8EncodeChar c = b :: bs) (hb : b.toNat < 128) :
    c = Char.ofNat b.toNat ∧ bs = [] := by
  rcases utf8EncodeChar_cases c with ⟨d, hd, hc⟩ | ⟨d, ds, hd, hhigh⟩
  · cases hd.symm.trans h
    exact ⟨hc.symm, rfl⟩
  · cases hd.symm.trans h
    have hlarge := hhigh b List.mem_cons_self
    omega

theorem utf8EncodeChar_tail (h : String.utf8EncodeChar c = b :: bs) :
    ∀ d ∈ bs, 128 ≤ d.toNat := by
  rcases utf8EncodeChar_cases c with ⟨d, hd, -⟩ | ⟨d, ds, hd, hhigh⟩
  · cases hd.symm.trans h
    simp
  · cases hd.symm.trans h
    exact fun e he => hhigh e (List.mem_cons_of_mem _ he)

/-- Where a byte of ASCII stands among the bytes of characters, its character
stands among these, and no other one is cut. -/
theorem encode_split {front rest : List UInt8} (hb : b.toNat < 128)
    (h : encode chars = front ++ b :: rest) :
    ∃ before behind, chars = before ++ Char.ofNat b.toNat :: behind ∧ front = encode before ∧
      rest = encode behind := by
  induction chars generalizing front with
  | nil => simp at h
  | cons c chars ih =>
    rw [encode_cons] at h
    rcases List.append_eq_append_iff.mp h with ⟨mid, rfl, hchars⟩ | ⟨mid, hc, hrest⟩
    · obtain ⟨before, behind, rfl, rfl, rfl⟩ := ih hchars
      exact ⟨c :: before, behind, rfl, encode_cons.symm, rfl⟩
    · cases mid with
      | nil =>
        rw [List.append_nil] at hc
        obtain ⟨before, behind, rfl, hnil, rfl⟩ := @ih [] hrest.symm
        refine ⟨c :: before, behind, rfl, ?_, rfl⟩
        rw [encode_cons, ← hnil, List.append_nil, hc]
      | cons d mid =>
        obtain ⟨rfl, rfl⟩ := List.cons_eq_cons.mp hrest
        -- The byte is one of the first character, and then it is all of it.
        cases front with
        | nil =>
          obtain ⟨rfl, rfl⟩ := utf8EncodeChar_ascii hc hb
          exact ⟨[], chars, rfl, rfl, rfl⟩
        | cons e front =>
          have hlarge := utf8EncodeChar_tail hc b (by simp)
          omega

/-- What is done to the first byte behind a backslash is done to its character. -/
theorem encode_unescapeChar (h : String.utf8EncodeChar c = b :: bs) :
    String.utf8EncodeChar (unescapeChar c) = Byte.unescape b :: bs := by
  unfold unescapeChar
  split_ifs with hn hr ht hzero
  · subst hn
    cases (show [110] = b :: bs from h)
    rfl
  · subst hr
    cases (show [114] = b :: bs from h)
    rfl
  · subst ht
    cases (show [116] = b :: bs from h)
    rfl
  · subst hzero
    cases (show [48] = b :: bs from h)
    rfl
  · have hplain (d : UInt8) (hd : d.toNat < 128) (hc : c ≠ Char.ofNat d.toNat) : b ≠ d := by
      rintro rfl
      exact hc (utf8EncodeChar_ascii h hd).1
    have hsame : Byte.unescape b = b := by
      simp [Byte.unescape, hplain 110 (by decide) hn, hplain 114 (by decide) hr,
        hplain 116 (by decide) ht, hplain 48 (by decide) hzero]
    rw [h, hsame]

end

end Text

/-! ### Reading a literal -/

namespace Piece

open Text (encode)

/-- Bytes other than a quote and a backslash are taken as they are. -/
theorem stringEnd_bytes {bs : List UInt8} (hbs : ∀ b ∈ bs, b ≠ 34 ∧ b ≠ 92) (seen : Nat)
    (done rest : List UInt8) :
    stringEnd seen done (bs ++ rest) = stringEnd (seen + bs.length) (bs.reverse ++ done) rest := by
  induction bs generalizing seen done with
  | nil => rfl
  | cons b bs ih =>
    obtain ⟨hquote, hslash⟩ := hbs b List.mem_cons_self
    rw [List.cons_append, stringEnd_plain hquote hslash,
      ih fun d hd => hbs d (List.mem_cons_of_mem _ hd)]
    simp [Nat.add_comm, Nat.add_left_comm]

theorem stringEnd_high {bs : List UInt8} (hbs : ∀ b ∈ bs, 128 ≤ b.toNat) (seen : Nat)
    (done rest : List UInt8) :
    stringEnd seen done (bs ++ rest) = stringEnd (seen + bs.length) (bs.reverse ++ done) rest := by
  apply stringEnd_bytes
  intro b hb
  have hlarge := hbs b hb
  constructor
  · rintro rfl
    exact absurd hlarge (by decide)
  · rintro rfl
    exact absurd hlarge (by decide)

/-- An escaped character is read whole, though only its first byte is escaped. -/
theorem stringEnd_escapeChar (c : Char) (seen : Nat) (done rest : List UInt8) :
    stringEnd seen done (92 :: (String.utf8EncodeChar c ++ rest)) =
      stringEnd (seen + 1 + (String.utf8EncodeChar c).length)
        ((String.utf8EncodeChar (unescapeChar c)).reverse ++ done) rest := by
  obtain ⟨b, bs, hc⟩ := List.exists_cons_of_ne_nil (String.utf8EncodeChar_ne_nil (c := c))
  rw [Text.encode_unescapeChar hc, hc, List.cons_append, stringEnd_escape,
    stringEnd_high (Text.utf8EncodeChar_tail hc)]
  simp [Nat.add_comm, Nat.add_left_comm]

theorem stringEnd_plainChar {c : Char} (hquote : c ≠ '"') (hslash : c ≠ '\\') (seen : Nat)
    (done rest : List UInt8) :
    stringEnd seen done (String.utf8EncodeChar c ++ rest) =
      stringEnd (seen + (String.utf8EncodeChar c).length)
        ((String.utf8EncodeChar c).reverse ++ done) rest := by
  obtain ⟨b, bs, hc⟩ := List.exists_cons_of_ne_nil (String.utf8EncodeChar_ne_nil (c := c))
  have hfirst : b ≠ 34 ∧ b ≠ 92 := by
    constructor
    · rintro rfl
      exact hquote (Text.utf8EncodeChar_ascii hc (by decide)).1
    · rintro rfl
      exact hslash (Text.utf8EncodeChar_ascii hc (by decide)).1
  rw [hc, List.cons_append, stringEnd_plain hfirst.1 hfirst.2,
    stringEnd_high (Text.utf8EncodeChar_tail hc)]
  simp [Nat.add_comm, Nat.add_left_comm]

/-- The bytes of characters behind an opening quote are read as a literal of
these characters. -/
theorem stringEnd_encode (seen : Nat) (done : List UInt8) : (chars : List Char) →
    ∃ body text closing behind closed, chars = body ++ (closing ++ behind) ∧
      LiteralBody body text ∧ LiteralEnd closed closing behind ∧
      stringEnd seen done (encode chars) =
        (seen + (encode (body ++ closing)).length, done.reverse ++ encode text, closed)
  | [] => ⟨[], [], [], [], false, rfl, .nil, .missing, by simp [stringEnd]⟩
  | c :: chars => by
    by_cases hquote : c = '"'
    · subst hquote
      refine ⟨[], [], ['"'], chars, true, rfl, .nil, .quote chars, ?_⟩
      have hfront (cs : List Char) : encode ('"' :: cs) = 34 :: encode cs := rfl
      rw [hfront, List.nil_append, hfront]
      cases encode chars <;> simp [stringEnd]
    by_cases hslash : c = '\\'
    · subst hslash
      match chars with
      | [] =>
        refine ⟨[], [], ['\\'], [], false, rfl, .nil, .backslash, ?_⟩
        have hfront : encode ['\\'] = [92] := rfl
        rw [List.nil_append, hfront]
        simp [stringEnd]
      | e :: chars =>
        obtain ⟨body, text, closing, behind, closed, rfl, hbody, hend, hread⟩ :=
          stringEnd_encode (seen + 1 + (String.utf8EncodeChar e).length)
            ((String.utf8EncodeChar (unescapeChar e)).reverse ++ done) chars
        refine ⟨'\\' :: e :: body, _, closing, behind, closed, rfl, .escape e hbody, hend, ?_⟩
        have hfront (cs : List Char) :
            encode ('\\' :: e :: cs) = 92 :: (String.utf8EncodeChar e ++ encode cs) := rfl
        rw [hfront, stringEnd_escapeChar, hread, List.cons_append, List.cons_append, hfront]
        simp [Nat.add_assoc, Nat.add_comm, Nat.add_left_comm]
    · obtain ⟨body, text, closing, behind, closed, rfl, hbody, hend, hread⟩ :=
        stringEnd_encode (seen + (String.utf8EncodeChar c).length)
          ((String.utf8EncodeChar c).reverse ++ done) chars
      refine ⟨c :: body, _, closing, behind, closed, rfl, .plain hquote hslash hbody, hend, ?_⟩
      rw [Text.encode_cons, stringEnd_plainChar hquote hslash, hread]
      simp [Nat.add_assoc]

end Piece

/-- A string piece of a source is a literal of its characters, and the bytes that
it has collected are those of the literal's text. -/
theorem Cut.Of.stringAt {src : String} {c : Cut} {length : Nat} {content : List UInt8}
    {closed : Bool} (h : c.Of (Text.bytes src)) (hpiece : c.piece = .string length content closed) :
    ∃ text, content = Text.bytes text ∧ StringAt src c.here.offset c.there.offset closed text := by
  obtain ⟨more, hrest⟩ : ∃ more, c.rest = 34 :: more := by
    have hfront := h.front
    rw [← List.take_append_drop c.piece.length c.rest]
    change ∃ more, c.lexeme ++ c.after = 34 :: more
    rw [hpiece] at hfront
    generalize c.lexeme = lexeme at hfront
    cases hfront with
    | string => exact ⟨_, rfl⟩
  have hbytes : Text.encode src.toList = (Text.bytes src).take c.here.offset ++ 34 :: more := by
    rw [← hrest, h.place, List.take_append_drop, Text.bytes_eq, Text.encode]
  obtain ⟨before, behind, hsrc, hbefore, rfl⟩ := Text.encode_split (by decide) hbytes
  obtain ⟨body, text, closing, behind, closed', rfl, hbody, hend, hread⟩ :=
    Piece.stringEnd_encode 1 [] behind
  have hfound := h.found
  rw [hrest, Piece.atFront?_quote hread, hpiece] at hfound
  cases hfound
  have hstart : c.here.offset = (Text.encode before).length := by
    rw [← hbefore, List.length_take_of_le h.bound]
  refine ⟨String.ofList text, (Text.bytes_ofList text).symm, before, body, closing, behind, hsrc,
    ?_, ?_, ?_, hend⟩
  · rw [← Text.length_encode]
    exact hstart
  · have hquote (cs : List Char) : Text.encode ('"' :: cs) = 34 :: Text.encode cs := rfl
    rw [← Text.length_encode, Text.encode_append, List.length_append, hquote, List.length_cons,
      ← hstart, Nat.add_comm _ 1]
    exact h.stop.trans (by rw [hpiece]; rfl)
  · rw [String.toList_ofList]
    exact hbody

/-- Only a string literal gives a string token. -/
theorem Piece.string_of_token {p : Piece} {names : Interner} {sym : Symbol}
    (h : (p.token names).1 = some (.str sym)) :
    ∃ length content closed, p = .string length content closed ∧
      sym = (names.intern (Text.ofBytes content)).1 := by
  cases p with
  | string length content closed =>
    cases h
    exact ⟨length, content, closed, rfl, rfl⟩
  | numeral literal =>
    rw [token] at h
    split at h <;> cases h
  | word lexeme =>
    rw [token] at h
    dsimp only at h
    split at h <;> cases h
  | _ => cases h

/-- A string token holds the text of its literal, wherever the lexer comes upon
it. -/
theorem LexState.Passes.stringAt {src : String} {s : LexState} {cs : List Cut} {c : Cut}
    (h : Passes (.before src) cs s) (hc : c ∈ cs) {sym : Symbol}
    (htoken : (c.piece.token c.names).1 = some (.str sym)) :
    ∃ text closed, StringAt src c.here.offset c.there.offset closed text ∧
      s.names.resolve? sym = some text ∧
      c.piece = .string (c.there.offset - c.here.offset) (Text.bytes text) closed := by
  obtain ⟨length, content, closed, hpiece, rfl⟩ := Piece.string_of_token htoken
  have hof := h.of_before c hc
  obtain ⟨text, rfl, hliteral⟩ := hof.stringAt hpiece
  refine ⟨text, closed, hliteral, ?_, ?_⟩
  · obtain ⟨front, s1, back, -, -, -, hcut, hback⟩ := h.split hc
    have hsame : s1.names = c.names := congrArg Cut.names hcut
    have hlater : (c.piece.token c.names).2 = (c.names.intern text).2 := by
      rw [hpiece, Piece.token, Text.ofBytes_bytes]
    rw [Text.ofBytes_bytes]
    apply hback.resolve?
    rw [LexState.pass, hsame, hlater]
    exact Interner.resolve?_intern
  · rw [hof.stop, Nat.add_sub_cancel_left, hpiece]
    rfl

/-- What a string token holds: the bytes that were collected for it are those of
a text, which is interned and which its literal stands for. -/
structure PlacedToken.Decoded (src : String) (lexed : Lexed) (p : PlacedToken) (sym : Symbol)
    (content : List UInt8) (closed : Bool) (text : String) : Prop where
  collected : Piece.atFront? ((Text.bytes src).drop p.start) =
    some (.string (p.stop - p.start) content closed)
  valid : String.fromUTF8? content.toByteArray = some text
  unchanged : Text.bytes (Text.ofBytes content) = content
  interned : lexed.names.resolve? sym = some text
  literal : StringAt src p.start p.stop closed text

/-- String literals are decoded without loss, closed or not, wherever the lexer
comes upon them. -/
theorem string_literals_lossless {src : String} {limits : Limits} {lexed : Lexed}
    (h : lex src limits = .ok lexed) :
    ∃ row, PlacedToken.RowOf src lexed row ∧ ∀ p ∈ row, ∀ sym, p.token.kind = .str sym →
      ∃ content closed text, p.Decoded src lexed sym content closed text := by
  obtain ⟨cs, s, row, hpasses, hnames, hrow, hcuts⟩ := placed_of_lex h
  refine ⟨row, hrow, fun p hp sym hkind => ?_⟩
  obtain ⟨c, hc, hcp⟩ := hcuts p hp (by rw [hkind]; nofun)
  obtain ⟨htoken, hstart, hstop⟩ := Cut.of_placed? hcp
  rw [hkind] at htoken
  obtain ⟨text, closed, hliteral, hname, hpiece⟩ := hpasses.stringAt hc htoken
  have hof := hpasses.of_before c hc
  have hfound := hof.found
  rw [hof.place, hpiece] at hfound
  rw [← hstart, ← hstop] at hliteral hfound
  exact ⟨_, closed, text, hfound, Text.fromUTF8?_bytes text, by rw [Text.ofBytes_bytes],
    hnames ▸ hname, hliteral⟩

/-- The first char literal takes half of a character, and the last literal is not
closed. -/
theorem string_literals_lossless_open :
    ∃ lexed, lex "'é \"x\\é\\n\" \"é\\" {} = .ok lexed ∧
      lexed.tokens.toList.map (·.kind) = [.char 0xC3, .str 0, .str 1, .eof] ∧
      lexed.names.strings = #["xé\n", "é"] ∧
      ∃ p : PlacedToken, p.token ∈ lexed.tokens ∧ p.token.kind = .str 1 ∧
        ∃ content closed text,
          p.Decoded "'é \"x\\é\\n\" \"é\\" lexed 1 content closed text := by
  have hok : (lex "'é \"x\\é\\n\" \"é\\" {}).isOk = true := by decide +kernel
  obtain ⟨lexed, hlexed⟩ := exists_of_isOk hok
  have hkinds : (lex "'é \"x\\é\\n\" \"é\\" {}).map (·.tokens.toList.map (·.kind)) =
      .ok [.char 0xC3, .str 0, .str 1, .eof] := by decide +kernel
  have hstrings : (lex "'é \"x\\é\\n\" \"é\\" {}).map (·.names.strings) =
      .ok #["xé\n", "é"] := by decide +kernel
  rw [hlexed] at hkinds hstrings
  have hkinds : lexed.tokens.toList.map (·.kind) = _ := Except.ok.inj hkinds
  obtain ⟨row, hrow, hdecoded⟩ := string_literals_lossless hlexed
  obtain ⟨p, hp, hkind⟩ : ∃ p ∈ row, p.token.kind = .str 1 := by
    have hmem : .str 1 ∈ (row.map (·.token)).map (·.kind) := by
      rw [hrow.tokens, hkinds]
      simp
    rwa [List.map_map, List.mem_map] at hmem
  have ht : p.token ∈ lexed.tokens := by
    rw [← Array.mem_toList_iff, ← hrow.tokens]
    exact List.mem_map_of_mem hp
  exact ⟨lexed, hlexed, hkinds, Except.ok.inj hstrings, p, ht, hkind, hdecoded p hp 1 hkind⟩

end StagedCompiler
