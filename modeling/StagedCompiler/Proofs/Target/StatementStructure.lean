import StagedCompiler.Proofs.Target.WrittenStatements
import StagedCompiler.Proofs.Tree.Store
import StagedCompiler.Proofs.Tree.WellSorted

/-!
Function definitions read back. The lines of a definition are those of a C
function with the same parameters and the same statements, and there is no
other way to read them. Names have to be free in C: a name that C reserves or
takes for a type changes what a line is.
-/

namespace StagedCompiler

/-! ### Numbers of units -/

/-- Decimals without a sign are read as doubles without one. -/
theorem Double.isNegative_ofDecimal (digits count : Nat) (exponent : Int) :
    (Double.ofDecimal digits count exponent).isNegative = false := by
  have hratio (num den : Nat) : (Double.ofRatio num den).isNegative = false := by
    unfold Double.ofRatio
    dsimp only
    split
    · next hbits =>
      have hlimit : Double.infinity.bits.toNat = 0x7FF0000000000000 := by decide
      rw [hlimit] at hbits
      rw [Double.isNegative, decide_eq_false_iff_not]
      simp only [Nat.toUInt64, UInt64.toNat_ofNat']
      omega
    · decide
  unfold Double.ofDecimal
  split
  · decide
  · split
    · decide
    · split
      · split
        · decide
        · exact hratio _ _
      · exact hratio _ _

theorem Piece.token_float (p : Piece) (names : Interner) (kind : TokenKind)
    (h : (p.token names).1 = some kind) (v : Double) (hv : kind = .float v) :
    v.isNegative = false := by
  subst hv
  obtain ⟨_, hgives⟩ := Piece.gives_fst h
  cases hgives with
  | float literal => exact Double.isNegative_ofDecimal _ _ _

/-- What holds of all nodes of an ordered arena holds all over its trees. -/
theorem Arena.Ordered.all_treeOf {a : Arena} {names : Interner} {p : NodeKind String Tree → Bool}
    (h : a.Ordered) (hempty : p (.program []) = true)
    (hnode : ∀ (id : NodeId) (n : Node), a.nodes[id]? = some n →
      p (n.kind.map names.resolve (a.treeOf names)) = true) (id : NodeId) :
    (a.treeOf names id).all p = true := by
  induction id using Nat.strong_induction_on with
  | _ id ih =>
    cases hn : a.nodes[id]? with
    | none =>
      have hsize : a.nodes.size ≤ id := Array.getElem?_eq_none_iff.mp hn
      have hnone : a.treeOf names id = .empty := by
        rw [Arena.treeOf, Array.getD_eq_getD_getElem?, Array.getElem?_eq_none]
        · rfl
        · exact (Arena.size_trees a names).symm ▸ hsize
      rw [hnone, Tree.empty, Tree.all_node]
      exact ⟨hempty, by simp [NodeKind.children]⟩
    | some n =>
      rw [Arena.treeOf_node h hn, Tree.all_node]
      refine ⟨hnode id n hn, ?_⟩
      rw [NodeKind.children_map, List.forall_mem_map]
      exact fun child hchild => ih child (h id n hn child hchild)

/-- No number of a unit has a sign. -/
theorem isUnsigned_of_parseSource {src : String} {opts : Options} {parsed : Parsed}
    (h : parseSource src opts = .ok parsed) : parsed.ast.tree.all CSyntax.isUnsigned = true := by
  obtain ⟨lexed, hlex, hread⟩ := lexed_of_parseSource h
  obtain ⟨s, root, dropped, hs, -, -, rfl⟩ := readProgram_history hread
  obtain ⟨before, span, htokens, hfloat⟩ := lex_tokens_of_pieces Piece.token_float hlex
  apply hs.forest.earlier.all_treeOf rfl
  intro id n hn
  have hvalued := (parsed_in_order h hn).2.1
  have hfloating := (hs.in_order id n hn).floating
  cases hkind : n.kind with
  | int value =>
    rw [hkind] at hvalued
    exact decide_eq_true hvalued.1
  | float value =>
    rw [hkind] at hfloating
    obtain ⟨t, ht, hvalue⟩ := hfloating
    rw [htokens, splitEof_push] at ht
    have hsign := hfloat t (Array.mem_toList_iff.mp ht) value hvalue
    simp [NodeKind.map, CSyntax.isUnsigned, hsign]
  | _ => rfl

namespace CSyntax

open Target
open Shape

/-! ### Lines of a text -/

theorem spells_newline : Spells ['\n'] [] AnyNext :=
  .of_piece none (quiet_of_plain (by decide)) (by simp) fun _ _ => rfl

theorem lexemes?_lines {texts : List String} {lines : List (List Lexeme)}
    (h : List.Forall₂ LineOf texts lines) :
    lexemes? (String.join (texts.map (· ++ "\n"))) = some lines.flatten := by
  have hspells : Spells (String.join (texts.map (· ++ "\n"))).toList lines.flatten AnyNext := by
    induction h with
    | nil => exact spells_nil _
    | @cons text ts texts lines hline _ ih =>
      have hfirst := hline.spells.append_any (spells_newline.append_any ih)
      rw [List.map_cons, String.join_cons, String.toList_append, String.toList_append,
        List.append_assoc, List.flatten_cons]
      exact hfirst
  exact hspells.lexemes?_eq

/-! ### Scopes -/

def bindParams (s : Scope) (params : List (String × Tree)) : Scope :=
  params.foldl (fun s param => s.declareVar param.1 (lower param.2)) s

theorem emits_declareParams (params : List (String × Tree)) (s : Scope) :
    Emits (declareParams params) s (bindParams s params) [] := by
  induction params generalizing s with
  | nil => exact emits_pure
  | cons param params ih =>
    apply (emits_note _).silent
    apply (emits_declareVar _ _).silent
    exact ih _

theorem WritableScope.bindParams {s : Scope} (hs : WritableScope s) {params : List (String × Tree)}
    (h : ∀ param ∈ params, isWritable (lower param.2) = true) :
    WritableScope (bindParams s params) := by
  induction params generalizing s with
  | nil => exact hs
  | cons param params ih =>
    apply ih (hs.declareVar (h param (by simp)) param.1)
    exact fun p hp => h p (List.mem_cons_of_mem _ hp)

theorem WritableScope.enterFunction {s : Scope} (hs : WritableScope s) :
    WritableScope s.enterFunction :=
  .of_holds hs.holds.enterFunction

theorem isWritable_params {types : List String} {n : Nat} {params : List Tree}
    (h : ∀ t ∈ params, ParamAt n t) (hreadable : ∀ t ∈ params, t.all (isReadable types) = true) :
    ∀ param ∈ paramTypes params,
      isUsable types param.1 = true ∧ isWritable (lower param.2) = true := by
  intro param hparam
  refine ⟨?_, (inherited_isWritable types).holds_paramTypes hreadable hparam⟩
  obtain ⟨t, ht, hsome⟩ := List.mem_filterMap.mp hparam
  have hnames := hreadable t ht
  cases h t ht with
  | mk name mutable span htype =>
    cases hsome
    exact (Tree.all_node.mp hnames).1

theorem writableScope_declarations {types : List String} {items : List Tree}
    (hreadable : ∀ t ∈ items, t.all (isReadable types) = true) :
    WritableScope (declarations items) :=
  .of_holds ((inherited_isWritable types).holds_declarations hreadable)

/-! ### Heads of functions -/

def paramText (name : String) (params : List Tree) : String :=
  if name = "main" ∨ (paramTypes params).isEmpty then "void"
  else ", ".intercalate ((paramTypes params).map fun param => (lower param.2).declare param.1)

theorem signature_eq (name : String) (params : List Tree) (ret : Option Tree) :
    signature name params ret =
      (retType name ret).render ++ " " ++ name ++ "(" ++ paramText name params ++ ")" := by
  unfold signature paramText
  by_cases hmain : name = "main"
  · rw [if_pos hmain, if_pos (.inl hmain), hmain]
    rfl
  · rw [if_neg hmain]
    simp only [hmain, false_or, List.isEmpty_map]

section

variable {types : List String} {name : String} {params : List Tree}

theorem entry_declare {t : CType} (ht : isWritable t = true) {name : String}
    (hname : isWord name.toList = true) : Entry (t.declare name) := by
  obtain ⟨hspells, hstarts, hunbroken⟩ := spells_declare ht hname
  have hts := hspells.lexemesOf_eq
  have htype := (typeText_render (isWritable_base ht)).form.nested.inside
  have hnested : Nested (fun _ => true) (declared t name none).tokens :=
    htype.append (.token rfl rfl ((dimsText t).nested.inside.append .nil))
  rw [← hts] at hspells hnested
  exact ⟨hspells.mono (List.all_eq_true.mp (by decide)), hstarts, hnested, hunbroken⟩

theorem entry_word {w : String} (h : isWord w.toList = true) : Entry w := by
  have hspells := spells_word h
  have hts := hspells.lexemesOf_eq
  have hstarts := (isWord_starts h).mono fun _ _ => trivial
  have hunbroken := newline_not_mem_of_isWordPart (isWord_parts h)
  refine ⟨hts ▸ hspells.mono (List.all_eq_true.mp (by decide)), hstarts, ?_, hunbroken⟩
  rw [hts]
  exact .token rfl rfl .nil

theorem entries_params (h : ∀ param ∈ paramTypes params,
    isUsable types param.1 = true ∧ isWritable (lower param.2) = true) :
    Entries (paramText name params) := by
  unfold paramText
  split
  · exact (entry_word (by decide)).entries
  · apply entries_separated
    intro param hparam
    obtain ⟨hname, htype⟩ := h param hparam
    exact entry_declare htype (isUsable_iff.mp hname).1

/-- The line that opens a function. -/
theorem lineOf_signature {ret : Option Tree} (hname : isWord name.toList = true)
    (hret : isWritable (retType name ret) = true) (hparams : Entries (paramText name params)) :
    LineOf (signature name params ret ++ " \x7b")
      (lexemesOf (retType name ret).render ++ Lexeme.word name ::
        (Lexeme.mark .lparen :: (lexemesOf (paramText name params) ++ [Lexeme.mark .rparen]) ++
          [Lexeme.mark .lbrace])) := by
  have htype := typeText_render hret
  have hlist := hparams.listed.enclosed ('(', .lparen) (')', .rparen) (by decide) (by decide)
    (by decide)
  have hopen := spells_blank.append_any (spells_single '\x7b' .lbrace (by decide))
  have hhead := (spells_word hname).append (hlist.append_any hopen) (starts_cons (by decide) _)
  have hspells := htype.spells.append (spells_blank.append_any hhead) (starts_cons (by decide) _)
  have hchars : (signature name params ret ++ " \x7b").toList =
      (retType name ret).render.toList ++ ([' '] ++ (name.toList ++
        ((['('] ++ ((paramText name params).toList ++ [')'])) ++ ([' '] ++ ['\x7b'])))) := by
    rw [signature_eq]
    simp
  constructor
  · rw [hchars]
    simpa using hspells
  · rw [hchars]
    apply List.not_mem_append htype.unbroken
    apply List.not_mem_append (by decide)
    apply List.not_mem_append (newline_not_mem_of_isWordPart (isWord_parts hname))
    apply List.not_mem_append _ (by decide)
    exact List.not_mem_append (by decide) (List.not_mem_append hparams.unbroken (by decide))

end

/-! ### Functions -/

def bodyStatements : Tree → List Tree
  | .node (.block stmts) _ => stmts
  | _ => []

/-- The C function with the same name, parameters and statements. In `main` an
exit code is given behind all of them. -/
def mirrorFunction (s : Scope) (name : String) (params : List Tree) (ret : Option Tree)
    (body : Tree) : CFunction where
  type := lexemesOf (retType name ret).render
  name
  params := .mark .lparen :: (lexemesOf (paramText name params) ++ [.mark .rparen])
  body := ((mirrorAll (name = "main") (bodyStatements body)).run
      (bindParams s.enterFunction (paramTypes params))).1 ++
    if name = "main" then [.ret (some [.number ['0']])] else []

theorem linesOf_append (cs ds : List CStmt) : linesOf (cs ++ ds) = linesOf cs ++ linesOf ds := by
  rw [linesOf_eq, linesOf_eq, linesOf_eq, List.flatMap_append]

theorem lineOf_empty : LineOf "" [] :=
  ⟨spells_nil _, by decide⟩

section

variable {types : List String} {n : Nat} {name : String} {isPublic : Bool} {params : List Tree}
  {ret : Option Tree} {body : Tree} {span : Span} {s : Scope}

/-- A function is written as its head, its statements and its closing brace. -/
theorem functionWriter_emits {stmts : List Tree} {place : Span}
    (hsignature : LineOf (signature name params ret ++ " \x7b")
      (lexemesOf (retType name ret).render ++ .word name ::
        (.mark .lparen :: (lexemesOf (paramText name params) ++ [Lexeme.mark .rparen]) ++
          [.mark .lbrace])))
    (hstmts : LaysAll types (Target.stmts (name = "main") 1 stmts)
      (bindParams s.enterFunction (paramTypes params))
      ((mirrorAll (name = "main") stmts).run (bindParams s.enterFunction (paramTypes params)))) :
    Emits (functionWriter name params ret (.node (.block stmts) place)) s.enterFunction
      ((mirrorAll (name = "main") stmts).run (bindParams s.enterFunction (paramTypes params))).2
      (mirrorFunction s name params ret (.node (.block stmts) place)).lines := by
  have hclose := lineOf_single (c := '\x7d') (m := .rbrace) (by decide)
  have hend (s : Scope) : Emits (do Writer.line 0 "\x7d"; Writer.line 0 "") s s
      [[.mark .rbrace], []] := (emits_line 0 hclose).bind (emits_line 0 lineOf_empty)
  unfold functionWriter
  apply (emits_declareParams _ _).silent
  apply (emits_note _).silent
  apply (emits_line 0 hsignature).bind
  rw [stmt, if_pos rfl]
  by_cases hmain : name = "main"
  · have hzero : Phrase types "0" [] := phrase_number (quiet_of_plain (by decide)) (by decide)
    have hexit (s : Scope) := (emits_line 1 (lineOf_return hzero)).bind (hend s)
    have hlines : linesOf [.ret (some [.number ['0']])] =
        [.word "return" :: (lexemesOf "0" ++ [Lexeme.mark .semicolon])] := by
      simp only [linesOf, CStmt.lines, List.append_nil]
      rfl
    have hbody := hstmts.emits.bind (hexit _)
    rw [← List.append_assoc, ← hlines, ← linesOf_append] at hbody
    simp only [mirrorFunction, if_pos hmain]
    exact hbody
  · simp only [mirrorFunction, if_neg hmain, List.append_nil]
    exact hstmts.emits.bind (hend _)

/-- The definition of a function has the lines of its mirror, and they are read
as nothing else. -/
theorem function_lays (hs : WritableScope s)
    (h : ItemAt n (.node (.function name isPublic params ret body) span))
    (hfit : Fit types (.node (.function name isPublic params ret body) span)) :
    (mirrorFunction s name params ret body).Tidy types ∧
      ∃ s', Emits (functionWriter name params ret body) s.enterFunction s'
        (mirrorFunction s name params ret body).lines := by
  obtain ⟨hword, hfree⟩ := isUsable_iff.mp hfit.at_node.1
  have hreadable := (Tree.all_node.mp hfit.readable).2
  cases h with
  | function _ _ _ hparams hret hbody =>
    have htypes := isWritable_params hparams fun t ht =>
      hreadable t (by simp [NodeKind.children, ht])
    have hresult : isWritable (retType name ret) = true := by
      apply (inherited_isWritable types).holds_retType
      exact fun t ht => hreadable t (by simp [NodeKind.children, Option.mem_toList.mpr ht])
    have hentries : Entries (paramText name params) := entries_params htypes
    have hscope : WritableScope (bindParams s.enterFunction (paramTypes params)) :=
      hs.enterFunction.bindParams fun param hparam => (htypes param hparam).2
    have hinner := hfit.children rfl body (by simp [NodeKind.children])
    cases hbody with
    | @mk _ stmts place hstmts =>
      have hlays := stmts_lays 1 (fun t ht s hs => stmt_lays (hstmts t ht)
        (hinner.children rfl t (by simpa [NodeKind.children] using ht)) (name = "main") 1 s hs)
        hscope
      have hemits : Emits (functionWriter name params ret (.node (.block stmts) place)) _ _ _ :=
        functionWriter_emits (lineOf_signature hword hresult hentries) hlays
      refine ⟨⟨(typeText_render hresult).form, hfree, .enclose rfl rfl hentries.nested, ?_, ?_⟩,
        _, hemits⟩
      · exact List.cons_ne_nil _ _
      · intro c hc
        rcases List.mem_append.mp hc with hc | hc
        · exact hlays.tidy c hc
        · split at hc
          · cases List.mem_singleton.mp hc
            exact .ret (List.cons_ne_nil _ _) (.token rfl rfl .nil)
          · cases hc

/-- The text of a definition is made of lines, and a reader finds the mirror of
the function in them and nothing else. -/
theorem definition_reads (hs : WritableScope s)
    (h : ItemAt n (.node (.function name isPublic params ret body) span))
    (hfit : Fit types (.node (.function name isPublic params ret body) span)) :
    ∃ lines : List String,
      definitionText s (.node (.function name isPublic params ret body) span) =
          String.join (lines.map (· ++ "\n")) ∧
        List.Forall₂ LineOf lines (mirrorFunction s name params ret body).lines ∧
        ∀ f, ReadsFunction types
            (definitionText s (.node (.function name isPublic params ret body) span)) f ↔
          f = mirrorFunction s name params ret body := by
  obtain ⟨htidy, s', hemits⟩ := function_lays hs h hfit
  obtain ⟨-, lines, hlines, hall⟩ := hemits { scope := s.enterFunction } rfl
  have htext : definitionText s (.node (.function name isPublic params ret body) span) =
      String.join (lines.map (· ++ "\n")) := congrArg String.join hlines
  have hreads := htidy.readsFunction (lexemes?_lines hall)
  refine ⟨lines, htext, hall, fun f => ?_⟩
  rw [htext]
  constructor
  · exact fun hf => hf.unique hreads
  · rintro rfl
    exact hreads

end

end CSyntax

open CSyntax

/-- The offences of a function are those of its body. -/
theorem offences_of_function {n : Nat} {name : String} {isPublic : Bool} {params : List Tree}
    {ret : Option Tree} {body : Tree} {span : Span}
    (h : Shape.ItemAt n (.node (.function name isPublic params ret body) span)) :
    Target.offences (.node (.function name isPublic params ret body) span) =
      Target.offences body := by
  cases h with
  | function _ _ _ hparams hret _ =>
    have hfirst : params.flatMap Target.offences = [] := by
      rw [List.flatMap_eq_nil_iff]
      intro t ht
      cases hparams t ht with
      | mk _ _ _ htype =>
        rw [Target.offences_plain rfl]
        simpa [NodeKind.children] using Target.offences_of_type htype
    have hsecond : ret.toList.flatMap Target.offences = [] := by
      rw [List.flatMap_eq_nil_iff]
      exact fun t ht => Target.offences_of_type (hret t (Option.mem_toList.mp ht))
    rw [Target.offences_plain rfl, NodeKind.children, List.flatMap_append, List.flatMap_append,
      hfirst, hsecond]
    simp

theorem definition_in_render {t item : Tree} (h : item ∈ t.items) (support : SupportForm) :
    ∃ before after : String, (Target.render t support).c =
      before ++ Target.definitionText (Target.declarations t.items) item ++ after := by
  obtain ⟨first, last, hsplit⟩ := List.append_of_mem h
  have hjoin : String.join (t.items.map (Target.definitionText (Target.declarations t.items))) =
      String.join (first.map (Target.definitionText (Target.declarations t.items))) ++
        (Target.definitionText (Target.declarations t.items) item ++
          String.join (last.map (Target.definitionText (Target.declarations t.items)))) := by
    conv_lhs => rw [hsplit]
    rw [List.map_append, List.map_cons, String.join_append, String.join_cons, ← hsplit]
  have hwhole (before middle after : String) :
      before ++ (middle ++ after) = before ++ middle ++ after :=
    (String.append_assoc ..).symm
  rw [(Target.render_parts t support).1, hjoin]
  simp only [hwhole]
  exact ⟨_, _, rfl⟩

/-- Every function of a unit that has a C form is read back from its lines with
its statements in the same places, if no name of the unit is reserved in C or
names a type there and no string holds a trigraph. -/
theorem statements_read_back {src : String} {opts target : Options} {parsed : Parsed}
    {g : Target.Generated} {types : List String} {name : String} {isPublic : Bool}
    {params : List Tree} {ret : Option Tree} {body : Tree} {span : Span}
    (h : parseSource src opts = .ok parsed) (hg : Target.generate parsed.ast target = .ok g)
    (hclean : g.diagnostics = #[]) (hreadable : parsed.ast.tree.all (isReadable types) = true)
    (hmem : .node (.function name isPublic params ret body) span ∈ parsed.ast.tree.items) :
    ∃ (lines : List String) (before after : String),
      g.c = before ++ String.join (lines.map (· ++ "\n")) ++ after ∧
        List.Forall₂ LineOf lines
          (mirrorFunction (Target.declarations parsed.ast.tree.items) name params ret body).lines ∧
        ∀ f, ReadsFunction types (String.join (lines.map (· ++ "\n"))) f ↔
          f = mirrorFunction (Target.declarations parsed.ast.tree.items) name params ret body := by
  obtain ⟨lexed, -, hread⟩ := lexed_of_parseSource h
  have hshape := readProgram_shape hread
  have hrender : g = Target.render parsed.ast.tree target.support := by
    simp only [Target.generate, Target.Generated.accept] at hg
    split at hg
    · cases hg
    · cases hg
      rfl
  have hoffences := Target.render_diagnostics hshape target.support
  have hunsigned := isUnsigned_of_parseSource h
  rw [← hrender, hclean] at hoffences
  have hsound := List.flatMap_eq_nil_iff.mp hoffences.symm _ hmem
  obtain ⟨before, after, hc⟩ := definition_in_render hmem target.support
  rw [← hrender] at hc
  generalize parsed.ast.tree = t at *
  cases hshape with
  | @mk items place hitems =>
    have hnames := (Tree.all_node.mp hreadable).2
    have hsigns := (Tree.all_node.mp hunsigned).2
    have hitem := hitems _ hmem
    have hfit : Fit types (.node (.function name isPublic params ret body) span) :=
      ⟨(offences_of_function hitem).trans hsound, hnames _ hmem, hsigns _ hmem⟩
    have hscope : WritableScope (Target.declarations items) := writableScope_declarations hnames
    obtain ⟨lines, htext, hall, hreads⟩ := definition_reads hscope hitem hfit
    rw [Tree.items, htext] at hc
    rw [htext] at hreads
    exact ⟨lines, before, after, hc, hall, hreads⟩

def functionParts? : Tree → Option (String × List Tree × Option Tree × Tree)
  | .node (.function name _ params ret body) _ => some (name, params, ret, body)
  | _ => none

theorem eq_function {t : Tree} {parts : String × List Tree × Option Tree × Tree}
    (h : functionParts? t = some parts) : ∃ isPublic span,
      t = .node (.function parts.1 isPublic parts.2.1 parts.2.2.1 parts.2.2.2) span := by
  obtain ⟨kind, span⟩ := t
  cases kind with
  | function name isPublic params ret body =>
    cases h
    exact ⟨isPublic, span, rfl⟩
  | _ => cases h

/-- What the last function of a source is written from, with the unit, if the
unit has a C form. -/
def lastFunction? (src : String) :
    Option (List Tree × String × List Tree × Option Tree × Tree) :=
  (parseSource src {}).toOption.bind fun parsed =>
    if (Target.render parsed.ast.tree .declarations).diagnostics = #[] then
      (parsed.ast.tree.items.getLast?.bind functionParts?).map fun parts =>
        (parsed.ast.tree.items, parts)
    else none

def lastDefinition? (src : String) : Option String :=
  (lastFunction? src).map fun r => String.join
    (Target.functionState (Target.declarations r.1) r.2.1 r.2.2.1 r.2.2.2.1 r.2.2.2.2).lines.toList

def chainSource : String :=
  "fn main() \x7b if a \x7b return; \x7d else if b \x7b b = 1; \x7d else \x7b if c \x7b break; \x7d \x7d \x7d"

def chainLines : List (List Lexeme) :=
  [[.word "int", .word "main", .mark .lparen, .word "void", .mark .rparen, .mark .lbrace],
   [.word "if", .mark .lparen, .word "a", .mark .rparen, .mark .lbrace],
   [.word "return", .number ['0'], .mark .semicolon],
   [.mark .rbrace, .word "else", .word "if", .mark .lparen, .word "b", .mark .rparen,
    .mark .lbrace],
   [.word "b", .mark .eq, .number ['1'], .mark .semicolon],
   [.mark .rbrace, .word "else", .mark .lbrace],
   [.word "if", .mark .lparen, .word "c", .mark .rparen, .mark .lbrace],
   [.word "break", .mark .semicolon],
   [.mark .rbrace],
   [.mark .rbrace],
   [.word "return", .number ['0'], .mark .semicolon],
   [.mark .rbrace],
   []]

/-- A chain of conditionals whose last branch holds a conditional of its own. -/
theorem statements_read_back_chain :
    ∃ (parsed : Parsed) (name : String) (isPublic : Bool) (params : List Tree) (ret : Option Tree)
      (body : Tree) (span : Span),
      parseSource chainSource {} = .ok parsed ∧
        (Target.render parsed.ast.tree .declarations).diagnostics = #[] ∧
        parsed.ast.tree.all (isReadable []) = true ∧
        .node (.function name isPublic params ret body) span ∈ parsed.ast.tree.items ∧
        ∃ lines : List String, List.Forall₂ LineOf lines chainLines ∧
          ReadsFunction [] (String.join (lines.map (· ++ "\n")))
            (mirrorFunction (Target.declarations parsed.ast.tree.items) name params ret body) := by
  obtain ⟨parsed, hparsed⟩ :=
    exists_of_isOk (show (parseSource chainSource {}).isOk by decide +kernel)
  have hclean : ((parseSource chainSource {}).toOption.map fun parsed =>
      (Target.render parsed.ast.tree .declarations).diagnostics) = some #[] := by decide +kernel
  have hreadable : ((parseSource chainSource {}).toOption.map fun parsed =>
      parsed.ast.tree.all (isReadable [])) = some true := by decide +kernel
  have hlines : ((parseSource chainSource {}).toOption.bind fun parsed =>
      (parsed.ast.tree.items.getLast?.bind functionParts?).map fun parts =>
        (mirrorFunction (Target.declarations parsed.ast.tree.items) parts.1 parts.2.1 parts.2.2.1
          parts.2.2.2).lines) = some chainLines := by decide +kernel
  rw [hparsed] at hclean hreadable hlines
  obtain ⟨parts, hparts, hmirror⟩ := Option.map_eq_some_iff.mp hlines
  obtain ⟨item, hitem, hfunction⟩ := Option.bind_eq_some_iff.mp hparts
  obtain ⟨isPublic, span, rfl⟩ := eq_function hfunction
  have hmem := List.mem_of_getLast? hitem
  have hclean := Option.some.inj hclean
  have hreadable := Option.some.inj hreadable
  have hgenerate : Target.generate parsed.ast {} =
      .ok (Target.render parsed.ast.tree .declarations) := rfl
  obtain ⟨lines, -, -, -, hall, hreads⟩ :=
    statements_read_back hparsed hgenerate hclean hreadable hmem
  rw [hmirror] at hall
  exact ⟨parsed, _, _, _, _, _, _, hparsed, hclean, hreadable, hmem, lines, hall,
    (hreads _).mpr rfl⟩

/-- Tokens that are no definition, however long they are read. -/
theorem not_readsFunction {types : List String} {text : String} {ts : List Lexeme}
    (hts : lexemes? text = some ts) (h : ∀ n, function? types n ts = none) (f : CFunction) :
    ¬ReadsFunction types text f := by
  rintro ⟨ts', hts', n, hn⟩
  cases hts.symm.trans hts'
  rw [h] at hn
  cases hn

/-- Names that C reserves, names of types, trigraphs and missing names cannot be
read back, though the generator has nothing to say about them. -/
theorem definitions_misread :
    (∃ text, lastDefinition? "fn f()\x7blet int = 1;\x7d" = some text ∧
        ∀ f, ¬ReadsFunction [] text f) ∧
      (∃ text, lastDefinition? "struct S\x7b\x7d fn f()\x7bS(1);\x7d" = some text ∧
        ∀ f, ¬ReadsFunction ["S"] text f) ∧
      (∃ text, lastDefinition? "fn f()\x7b\"??/\";\x7d" = some text ∧
        ∀ f, ¬ReadsFunction [] text f) ∧
      ∃ text, lastDefinition? "fn f()\x7blet = 1;\x7d" = some text ∧
        ∀ f, ¬ReadsFunction [] text f := by
  refine ⟨?_, ?_, ?_, ?_⟩
  · refine ⟨"void f(void) \x7b\n    long long int = 1;\n\x7d\n\n", by decide +kernel, ?_⟩
    have hts : lexemes? "void f(void) \x7b\n    long long int = 1;\n\x7d\n\n" = some
        [.word "void", .word "f", .mark .lparen, .word "void", .mark .rparen, .mark .lbrace,
         .word "long", .word "long", .word "int", .mark .eq, .number ['1'], .mark .semicolon,
         .mark .rbrace] := by decide +kernel
    apply not_readsFunction hts
    intro n
    cases n <;> rfl
  · refine ⟨"void f(void) \x7b\n    S(1);\n\x7d\n\n", by decide +kernel, ?_⟩
    have hts : lexemes? "void f(void) \x7b\n    S(1);\n\x7d\n\n" = some
        [.word "void", .word "f", .mark .lparen, .word "void", .mark .rparen, .mark .lbrace,
         .word "S", .mark .lparen, .number ['1'], .mark .rparen, .mark .semicolon,
         .mark .rbrace] := by decide +kernel
    apply not_readsFunction hts
    intro n
    cases n <;> rfl
  · refine ⟨"void f(void) \x7b\n    \"??/\";\n\x7d\n\n", by decide +kernel, ?_⟩
    have hts : lexemes? "void f(void) \x7b\n    \"??/\";\n\x7d\n\n" = none := by decide +kernel
    rintro f ⟨ts, hsome, -⟩
    cases hts.symm.trans hsome
  · refine ⟨"void f(void) \x7b\n    long long <missing> = 1;\n\x7d\n\n", by decide +kernel, ?_⟩
    have hts : lexemes? "void f(void) \x7b\n    long long <missing> = 1;\n\x7d\n\n" = some
        [.word "void", .word "f", .mark .lparen, .word "void", .mark .rparen, .mark .lbrace,
         .word "long", .word "long", .mark .lt, .word "missing", .mark .gt, .mark .eq,
         .number ['1'], .mark .semicolon, .mark .rbrace] := by decide +kernel
    apply not_readsFunction hts
    intro n
    cases n <;> rfl

end StagedCompiler
