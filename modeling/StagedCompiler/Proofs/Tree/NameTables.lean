import StagedCompiler.Proofs.Lexer.SameStreams
import StagedCompiler.Proofs.Lexer.StringLiterals
import StagedCompiler.Proofs.Tree.NodeNames

/-!
The table of names. Its texts are those of the identifiers and strings of the
source, each where it first occurs; which text a token has is decided by its
place in the source alone. The parser adds the name for missing ones at most.
-/

namespace StagedCompiler

/-! ### Texts of tokens -/

/-- The text that the characters behind the opening quote of a literal stand
for. -/
def literalText : List Char → List Char
  | [] => []
  | c :: rest =>
    if c = '"' then []
    else if c = '\\' then
      match rest with
      | [] => []
      | escaped :: rest => unescapeChar escaped :: literalText rest
    else c :: literalText rest

def PlacedToken.text? (src : String) (p : PlacedToken) : Option String :=
  let lexeme := Text.ofBytes (Text.slice src p.start p.stop)
  match p.token.kind with
  | .ident _ => some lexeme
  | .str _ => some (String.ofList (literalText lexeme.toList.tail))
  | _ => none

theorem literalText_eq {body text closing behind : List Char} {closed : Bool}
    (hbody : LiteralBody body text) (hend : LiteralEnd closed closing behind) :
    literalText (body ++ closing) = text := by
  induction hbody with
  | nil => cases hend <;> rfl
  | plain hquote hslash _ ih =>
    rw [List.cons_append, literalText.eq_def]
    simp only [hquote, hslash, if_false, ih]
  | escape c _ ih => simp [literalText, ih]

/-- The bytes of a literal are those of its characters. -/
theorem StringAt.text {src text : String} {start stop : Nat} {closed : Bool}
    (h : StringAt src start stop closed text) :
    literalText (Text.ofBytes (Text.slice src start stop)).toList.tail = text.toList := by
  obtain ⟨before, body, closing, behind, hsrc, hstart, hstop, hbody, hend⟩ := h
  have hlexeme : Text.slice src start stop =
      Text.bytes (String.ofList ('"' :: (body ++ closing))) := by
    have hbytes : Text.bytes src =
        Text.encode before ++ (Text.encode ('"' :: (body ++ closing)) ++ Text.encode behind) := by
      rw [← String.ofList_toList (s := src), Text.bytes_ofList, hsrc, ← Text.encode_append,
        ← Text.encode_append]
      simp
    rw [← Text.length_encode] at hstart
    rw [← Text.length_encode, Text.encode_append, List.length_append, ← hstart] at hstop
    rw [Text.slice, hbytes, hstart, List.drop_left, ← hstart, hstop, Nat.add_sub_cancel_left,
      List.take_left, Text.bytes_ofList]
  rw [hlexeme, Text.ofBytes_bytes, String.toList_ofList, List.tail_cons]
  exact literalText_eq hbody hend

theorem Piece.fault?_of_ident {p : Piece} {names : Interner} {sym : Symbol}
    (h : (p.token names).1 = some (.ident sym)) : p.fault? = none := by
  obtain ⟨_, hgives⟩ := Piece.gives_fst h
  cases hgives with
  | ident lexeme => rfl

/-- The symbol of a token stands for the text that the token has in the source. -/
theorem resolve?_of_lex {src : String} {limits : Limits} {lexed : Lexed}
    (h : lex src limits = .ok lexed) :
    ∃ row, PlacedToken.RowOf src lexed row ∧ ∀ p ∈ row, ∀ sym,
      p.token.kind.symbol? = some sym →
        ∃ text, p.text? src = some text ∧ lexed.names.resolve? sym = some text := by
  obtain ⟨cs, s, row, hpasses, hnames, hrow, hcuts⟩ := placed_of_lex h
  refine ⟨row, hrow, fun p hp sym hsym => ?_⟩
  have heof : p.token.kind ≠ .eof := by
    intro heof
    rw [heof] at hsym
    cases hsym
  obtain ⟨c, hc, hcp⟩ := hcuts p hp heof
  obtain ⟨htoken, hstart, hstop⟩ := Cut.of_placed? hcp
  unfold PlacedToken.text?
  rw [hnames, hstart, hstop]
  cases hkind : p.token.kind with
  | ident sym' =>
    rw [hkind] at hsym htoken
    cases hsym
    obtain ⟨-, -, name, hname, hbytes⟩ := hpasses.spells hc (Piece.fault?_of_ident htoken) htoken
    refine ⟨name, ?_, hname⟩
    rw [(hpasses.of_before c hc).slice, ← hbytes, Text.ofBytes_bytes]
  | str sym' =>
    rw [hkind] at hsym htoken
    cases hsym
    obtain ⟨text, closed, hliteral, hname, -⟩ := hpasses.stringAt hc htoken
    refine ⟨text, ?_, hname⟩
    dsimp only
    rw [hliteral.text, String.ofList_toList]
  | _ =>
    rw [hkind] at hsym
    cases hsym

/-! ### Texts of a table -/

theorem Interner.intern_cases (t : Interner) (text : String) :
    text ∈ t.strings ∧ (t.intern text).2 = t ∨
      text ∉ t.strings ∧ (t.intern text).2.strings = t.strings.push text := by
  unfold intern
  split
  · next sym hsym => exact .inl ⟨Array.mem_of_getElem? ((t.index_iff text sym).mp hsym), rfl⟩
  · next hnone =>
    refine .inr ⟨fun hmem => ?_, rfl⟩
    obtain ⟨sym, hsym⟩ := Array.getElem?_of_mem hmem
    rw [(t.index_iff text sym).mpr hsym] at hnone
    cases hnone

theorem eraseDups_concat {α : Type} [BEq α] [LawfulBEq α] (l : List α) (a : α) :
    (l ++ [a]).eraseDups = if a ∈ l then l.eraseDups else l.eraseDups ++ [a] := by
  rw [List.eraseDups_append, List.cons_removeAll]
  by_cases ha : a ∈ l <;> simp [ha, List.eraseDups_cons]

/-- Tokens bring their texts into the table where they first occur. -/
theorem Labelled.strings {names names' : Interner} {kinds : List TokenKind}
    (h : Labelled names kinds names') {texts : List String}
    (hnames : names.strings.toList = texts.eraseDups) :
    names'.strings.toList = (texts ++ kinds.filterMap (·.text? names')).eraseDups := by
  induction h generalizing texts with
  | nil _ => simpa using hnames
  | plain hkind _ ih =>
    rw [ih hnames, List.filterMap_cons_none (by rw [TokenKind.text?, hkind]; rfl)]
  | @text names names' kind kinds text hkind hlater ih =>
    rw [List.filterMap_cons_some (hlater.text? hkind), ← List.singleton_append,
      ← List.append_assoc]
    apply ih
    rw [eraseDups_concat, ← hnames]
    rcases names.intern_cases text with ⟨hmem, hsame⟩ | ⟨hnew, hpush⟩
    · have hold : text ∈ texts := by
        rwa [← List.mem_eraseDups, ← hnames, Array.mem_toList_iff]
      rw [if_pos hold, hsame]
    · have hold : text ∉ texts := by
        rwa [← List.mem_eraseDups, ← hnames, Array.mem_toList_iff]
      rw [if_neg hold, hpush, Array.toList_push]

section

variable {src : String} {opts : Options} {lexed : Lexed} {parsed : Parsed}

theorem PlacedToken.text?_eq_none {p : PlacedToken} (h : p.token.kind.symbol? = none) :
    p.text? src = none := by
  unfold text?
  split
  · next hkind => simp [hkind, TokenKind.symbol?] at h
  · next hkind => simp [hkind, TokenKind.symbol?] at h
  · rfl

theorem strings_of_lex {limits : Limits} (h : lex src limits = .ok lexed)
    {row : List PlacedToken} (hrow : PlacedToken.RowOf src lexed row)
    (hnames : ∀ p ∈ row, ∀ sym, p.token.kind.symbol? = some sym →
      ∃ text, p.text? src = some text ∧ lexed.names.resolve? sym = some text) :
    lexed.names.strings.toList = (row.filterMap (·.text? src)).eraseDups := by
  have hempty : Interner.empty.strings.toList = [].eraseDups := rfl
  rw [(lex_labelled h).strings hempty, List.nil_append, ← hrow.tokens, List.filterMap_map,
    List.filterMap_map]
  congr 1
  apply List.filterMap_congr
  intro p hp
  rw [Function.comp_apply, Function.comp_apply, TokenKind.text?]
  cases hsym : p.token.kind.symbol? with
  | none => exact (PlacedToken.text?_eq_none hsym).symm
  | some sym =>
    obtain ⟨text, htext, hname⟩ := hnames p hp sym hsym
    rw [htext, Option.map_some, Interner.resolve, hname, Option.getD_some]

theorem Interner.lt_of_resolve? {names : Interner} {sym : Symbol} {text : String}
    (h : names.resolve? sym = some text) : sym < names.size :=
  (Array.getElem?_eq_some_iff.mp h).1

/-- All symbols of a unit are symbols of its table. -/
theorem symbols_of_parseSource (h : parseSource src opts = .ok parsed) {n : Node}
    (hn : n ∈ parsed.ast.arena.nodes) {sym : Symbol} (hsym : sym ∈ n.kind.names ++ n.kind.texts) :
    sym < parsed.ast.names.size := by
  obtain ⟨lexed, hlex, hread⟩ := lexed_of_parseSource h
  obtain ⟨s, hs, hnames, harena, -⟩ := readProgram_words hread
  have htoken (t : Token) (ht : t ∈ (splitEof lexed.tokens).1) (hkind : t.kind.symbol? = some sym) :
      sym < s.names.size := by
    obtain ⟨row, hrow, hresolve⟩ := resolve?_of_lex hlex
    obtain ⟨p, hp, rfl⟩ : ∃ p ∈ row, p.token = t := by
      rw [← List.mem_map, hrow.tokens, Array.mem_toList_iff]
      exact mem_of_mem_splitEof ht
    obtain ⟨text, -, hname⟩ := hresolve p hp sym hkind
    exact Interner.lt_of_resolve? (hs.extends_table sym text hname)
  rw [← harena] at hn
  rw [← hnames]
  rcases List.mem_append.mp hsym with hsym | hsym
  · rcases (hs.nodes n hn).names sym hsym with ⟨t, ht, hkind⟩ | hmissing
    · exact htoken t ht (by rw [hkind]; rfl)
    · exact Interner.lt_of_resolve? hmissing
  · obtain ⟨t, ht, hkind⟩ := (hs.nodes n hn).texts sym hsym
    exact htoken t ht (by rw [hkind]; rfl)

/-- The table of a source has the texts of its identifiers and strings, without
repetition and in the order in which they first occur, and the symbol of a
token is that of its text. The table of a unit is that of its source, or that
table and the name for missing ones, which is new to it and comes last; then
there was a fault. -/
theorem name_table_exact (h : tokenize src opts = .ok lexed) :
    (∃ row, PlacedToken.RowOf src lexed row ∧
      lexed.names.strings.toList = (row.filterMap (·.text? src)).eraseDups ∧
      (∀ p ∈ row, ∀ sym, p.token.kind.symbol? = some sym → sym < lexed.names.size ∧
        ∃ text, p.text? src = some text ∧ lexed.names.resolve? sym = some text ∧
          lexed.names.get? text = some sym) ∧
      ∀ p ∈ row, ∀ p' ∈ row, ∀ sym sym', p.token.kind.symbol? = some sym →
        p'.token.kind.symbol? = some sym' → (sym = sym' ↔ p.text? src = p'.text? src)) ∧
    ∀ parsed, parseSource src opts = .ok parsed →
      (∀ n ∈ parsed.ast.arena.nodes, ∀ sym ∈ n.kind.names ++ n.kind.texts,
        sym < parsed.ast.names.size) ∧
      (parsed.ast.names = lexed.names ∨
        Parser.missingName ∉ lexed.names.strings ∧
        parsed.ast.names.strings = lexed.names.strings.push Parser.missingName ∧
        ∃ d ∈ parsed.diagnostics, d.kind = .parse) ∧
      lexed.names.Extends parsed.ast.names := by
  obtain ⟨hlex, -⟩ := tokenize_ok_iff.mp h
  obtain ⟨row, hrow, hresolve⟩ := resolve?_of_lex hlex
  refine ⟨⟨row, hrow, strings_of_lex hlex hrow hresolve, ?_, ?_⟩, ?_⟩
  · intro p hp sym hsym
    obtain ⟨text, htext, hname⟩ := hresolve p hp sym hsym
    exact ⟨Interner.lt_of_resolve? hname, text, htext, hname,
      (lexed.names.index_iff text sym).mpr hname⟩
  · intro p hp p' hp' sym sym' hsym hsym'
    obtain ⟨text, htext, hname⟩ := hresolve p hp sym hsym
    obtain ⟨text', htext', hname'⟩ := hresolve p' hp' sym' hsym'
    rw [htext, htext', Option.some_inj]
    constructor
    · rintro rfl
      exact Option.some.inj (hname.symm.trans hname')
    · rintro rfl
      have hindex := (lexed.names.index_iff text sym).mpr hname
      exact Option.some.inj (hindex.symm.trans ((lexed.names.index_iff text sym').mpr hname'))
  · intro parsed hparsed
    obtain ⟨lexed', hlex', hread⟩ := lexed_of_parseSource hparsed
    cases hlex.symm.trans hlex'
    obtain ⟨s, hs, hnames, -, hreports⟩ := readProgram_words hread
    refine ⟨fun n hn sym hsym => symbols_of_parseSource hparsed hn hsym, ?_, ?_⟩
    · rw [← hnames, ← hreports]
      rcases hs.table with htable | ⟨htable, hfault⟩
      · exact .inl htable
      · rcases lexed.names.intern_cases Parser.missingName with ⟨-, hsame⟩ | ⟨hnew, hpush⟩
        · exact .inl (htable.trans hsame)
        · exact .inr ⟨hnew, (congrArg Interner.strings htable).trans hpush, hfault⟩
    · rw [← hnames]
      exact hs.extends_table

/-- A string with the text of an identifier, and a name that is missing. -/
theorem name_table_exact_missing : ∃ lexed parsed row,
    tokenize "fn f() \x7b let = \"f\"; \x7d" {} = .ok lexed ∧
    parseSource "fn f() \x7b let = \"f\"; \x7d" {} = .ok parsed ∧
    PlacedToken.RowOf "fn f() \x7b let = \"f\"; \x7d" lexed row ∧
    (row.filterMap (·.text? "fn f() \x7b let = \"f\"; \x7d")).eraseDups = ["f"] ∧
    lexed.names.strings.toList = ["f"] ∧
    parsed.ast.names.strings.toList = ["f", Parser.missingName] ∧
    lexed.names.Extends parsed.ast.names := by
  have htable : (tokenize "fn f() \x7b let = \"f\"; \x7d" {}).map (·.names.strings.toList) =
      .ok ["f"] := by
    decide +kernel
  have hnames : (parseSource "fn f() \x7b let = \"f\"; \x7d" {}).map
      (·.ast.names.strings.toList) = .ok ["f", Parser.missingName] := by
    decide +kernel
  obtain ⟨lexed, hlexed⟩ := exists_of_isOk
    (show (tokenize "fn f() \x7b let = \"f\"; \x7d" {}).isOk by decide +kernel)
  obtain ⟨parsed, hparsed⟩ := exists_of_isOk
    (show (parseSource "fn f() \x7b let = \"f\"; \x7d" {}).isOk by decide +kernel)
  rw [hlexed] at htable
  rw [hparsed] at hnames
  have htable : lexed.names.strings.toList = ["f"] := Except.ok.inj htable
  obtain ⟨⟨row, hrow, hstrings, -⟩, hunit⟩ := name_table_exact hlexed
  obtain ⟨-, -, hlater⟩ := hunit parsed hparsed
  exact ⟨lexed, parsed, row, hlexed, hparsed, hrow, hstrings.symm.trans htable, htable,
    Except.ok.inj hnames, hlater⟩

end

end StagedCompiler
