import StagedCompiler.Proofs.Lexer.SourceTokens
import StagedCompiler.Proofs.Tree.ParsedShape

/-!
Where the names in a unit come from. A reader takes names from the stream and
makes up one of its own, for names that are missing; texts of literals it only
takes from the stream. The table of names grows by that one name at most, and
only if a fault was reported.
-/

namespace StagedCompiler

namespace NodeKind

variable {Name Child Name' Child' : Type}

def names : NodeKind Name Child → List Name
  | function name .. | struct name _ | field name _ | param name .. | letStmt name ..
  | forStmt name .. | ident name | fieldAccess _ name | namedType name => [name]
  | importPath path => path
  | structLit name fields => name :: fields.map (·.name)
  | _ => []

def texts : NodeKind Name Child → List Name
  | str text => [text]
  | _ => []

theorem names_map (f : Name → Name') (g : Child → Child') (kind : NodeKind Name Child) :
    (kind.map f g).names = kind.names.map f := by
  cases kind <;> simp [map, names, Function.comp_def]

end NodeKind

def Interner.Extends (names names' : Interner) : Prop :=
  ∀ sym text, names.resolve? sym = some text → names'.resolve? sym = some text

namespace Parser

/-- The tokens of a stream and the table that they name symbols of. -/
structure Vocabulary where
  tokens : List Token
  table : Interner

namespace Vocabulary

section

variable (v : Vocabulary)

def IsName (names : Interner) (sym : Symbol) : Prop :=
  (∃ t ∈ v.tokens, t.kind = .ident sym) ∨ names.resolve? sym = some missingName

def IsText (sym : Symbol) : Prop :=
  ∃ t ∈ v.tokens, t.kind = .str sym

structure Spells (names : Interner) (kind : NodeKind Symbol NodeId) : Prop where
  names : ∀ sym ∈ kind.names, v.IsName names sym
  texts : ∀ sym ∈ kind.texts, v.IsText sym

/-- All that was read so far is made of the stream's words. -/
structure Covers (s : ParseState) : Prop where
  rest : s.rest ⊆ v.tokens
  table : s.names = v.table ∨
    s.names = (v.table.intern missingName).2 ∧ ∃ d ∈ s.diagnostics, d.kind = .parse
  nodes : ∀ n ∈ s.arena.nodes, v.Spells s.names n.kind

end

section

variable {v : Vocabulary} {names names' : Interner} {kind : NodeKind Symbol NodeId} {sym : Symbol}

theorem IsName.later (h : v.IsName names sym) (hnames : names.Extends names') :
    v.IsName names' sym :=
  h.imp_right (hnames sym missingName)

theorem Spells.later (h : v.Spells names kind) (hnames : names.Extends names') :
    v.Spells names' kind :=
  ⟨fun sym hsym => (h.names sym hsym).later hnames, h.texts⟩

/-- A kind without names and texts. -/
theorem Spells.of_nil (hnames : kind.names = []) (htexts : kind.texts = []) :
    v.Spells names kind where
  names := by simp [hnames]
  texts := by simp [htexts]

theorem Spells.of_name (hnames : kind.names = [sym]) (htexts : kind.texts = [])
    (hsym : v.IsName names sym) : v.Spells names kind where
  names := by simpa [hnames] using hsym
  texts := by simp [htexts]

/-- The symbols of the stream mean what they meant. -/
theorem Covers.extends_table {s : ParseState} (h : v.Covers s) : v.table.Extends s.names := by
  intro sym text htext
  rcases h.table with htable | ⟨htable, -⟩
  · rw [htable]
    exact htext
  · rw [htable]
    exact Interner.resolve?_intern_old htext

/-- The name for missing ones is found again once it is there. -/
theorem intern_again (names : Interner) (text : String) :
    (names.intern text).2.intern text = names.intern text := by
  have hthere : (names.intern text).2.index[text]? = some (names.intern text).1 :=
    ((names.intern text).2.index_iff _ _).mpr Interner.resolve?_intern
  rw [Interner.intern]
  split
  · next sym hsym =>
    rw [hthere] at hsym
    cases hsym
    rfl
  · next hnone =>
    rw [hthere] at hnone
    cases hnone

end

/-! ### Readers -/

/-- Names of nodes are words of the stream, and so are the tokens. -/
def bond (v : Vocabulary) : Bond ParseState where
  le s s' := s.names.Extends s'.names
  refl _ _ _ htext := htext
  trans h h' sym text htext := h' sym text (h sym text htext)
  place _ _ := True
  place_to _ _ := trivial
  known kind := kind ≠ .eof → ∃ t ∈ v.tokens, t.kind = kind
  name s sym := v.IsName s.names sym
  name_of_known h := .inl (h nofun)
  name_later hle h := h.later hle
  id _ _ _ _ := True
  id_later _ _ := trivial
  id_sub _ _ := trivial
  level := Eq
  even := True
  level_zero := Bond.level_zero_of_eq
  level_succ := Bond.level_succ_of_eq
  top _ := True
  free := False
  place_self _ _ := trivial
  name_self h := h.elim
  id_self _ _ _ _ := trivial

section

variable {v : Vocabulary} {s s' : ParseState} {k : Part}

theorem spells_literal {t : TokenKind} {kind : NodeKind Symbol NodeId} (ht : v.bond.known t)
    (hkind : t.literal? = some kind) : v.Spells s.names kind := by
  cases TokenKind.isLiteral hkind with
  | str sym => exact ⟨by simp [NodeKind.names], List.forall_mem_singleton.mpr (ht nofun)⟩
  | int _ | float _ | char _ | bool _ => exact .of_nil rfl rfl

/-- A node is formed of known words. -/
theorem spells_of_forms {kind kind' : NodeKind Symbol NodeId} (h : v.bond.Forms s k kind kind') :
    v.Spells s.names kind := by
  cases h with
  | literal ht hkind => exact spells_literal ht hkind
  | named hname | ident hname | fieldAccess _ hname | letStmt _ hname | forStmt hname
  | param _ hname | field hname | function _ hname | struct hname => exact .of_name rfl rfl hname
  | structLit hname hfields =>
    refine ⟨List.forall_mem_cons.mpr ⟨hname, ?_⟩, by simp [NodeKind.texts]⟩
    induction hfields with
    | nil => exact fun _ hsym => absurd hsym List.not_mem_nil
    | cons hf _ ih => exact List.forall_mem_cons.mpr ⟨hf.word.2, ih⟩
  | importPath hpath => exact ⟨hpath, by simp [NodeKind.texts]⟩
  | link op => cases op <;> exact .of_nil rfl rfl
  | _ => exact .of_nil rfl rfl

/-- What leaves the table and the arena alone and gives no token and no report
back. -/
theorem Covers.of_rest (h : v.Covers s) (hrest : s'.rest ⊆ s.rest) (hnames : s'.names = s.names)
    (harena : s'.arena = s.arena) (hreports : ∀ d ∈ s.diagnostics, d ∈ s'.diagnostics) :
    v.Covers s' ∧ v.bond.le s s' := by
  refine ⟨⟨List.Subset.trans hrest h.rest, ?_, ?_⟩, ?_⟩
  · rw [hnames]
    exact h.table.imp_right fun ⟨hmore, d, hd, hkind⟩ => ⟨hmore, d, hreports d hd, hkind⟩
  · rw [harena, hnames]
    exact h.nodes
  · intro sym text htext
    rw [hnames]
    exact htext

/-- A fault is reported before the name for missing ones is made up. -/
theorem Covers.missing (h : v.Covers s) {d : Diagnostic} (hd : d.kind = .parse)
    (hs' : s' = { s.report d with names := (s.names.intern missingName).2 }) :
    (v.Covers s' ∧ v.bond.le s s') ∧ v.IsName s'.names (s.names.intern missingName).1 := by
  have hfound : s.names.intern missingName = v.table.intern missingName := by
    rcases h.table with htable | ⟨htable, -⟩
    · rw [htable]
    · rw [htable, intern_again]
  have hnames : s.names.Extends (s.names.intern missingName).2 :=
    fun sym text htext => Interner.resolve?_intern_old htext
  subst hs'
  refine ⟨⟨⟨h.rest, .inr ⟨congrArg Prod.snd hfound, d, Array.mem_push_self, hd⟩, ?_⟩, hnames⟩,
    .inr Interner.resolve?_intern⟩
  exact fun n hn => (h.nodes n hn).later hnames

theorem Covers.grow (h : v.Covers s) {kind : NodeKind Symbol NodeId} {span : Span}
    (hkind : v.Spells s.names kind) : v.Covers (s.grow ⟨kind, span⟩) where
  rest := h.rest
  table := h.table
  nodes := by
    intro n hn
    rw [ParseState.grow, Arena.append, Array.mem_push] at hn
    rcases hn with hn | rfl
    · exact h.nodes n hn
    · exact hkind

theorem covers_steady (c : ParseSettings) : v.bond.Steady c v.Covers where
  place _ := trivial
  level _ := rfl
  top := trivial
  front {s} hs hkind := by
    refine ⟨front c s, hs.rest ?_, rfl⟩
    rw [rest_eq_front hkind]
    exact List.mem_cons_self
  skip _ hs := hs.of_rest (List.drop_subset _ _) rfl rfl fun _ hd => hd
  report _ _ hs := hs.of_rest (List.Subset.refl _) rfl rfl fun _ hd => Array.mem_push_of_mem _ hd
  missing _ _ _ hs hs' := hs.missing rfl hs'
  build _ hs hform _ := ⟨⟨hs.grow (spells_of_forms hform), fun _ _ htext => htext⟩, trivial⟩

end

end Vocabulary

end Parser

def Lexed.vocabulary (lexed : Lexed) : Parser.Vocabulary :=
  ⟨(splitEof lexed.tokens).1, lexed.names⟩

/-- A unit is made of the words of its stream and the name for missing ones. -/
theorem readProgram_words {lexed : Lexed} {opts : Options} {parsed : Parsed}
    (h : readProgram lexed opts = .ok parsed) :
    ∃ s, lexed.vocabulary.Covers s ∧ s.names = parsed.ast.names ∧ s.arena = parsed.ast.arena ∧
      s.diagnostics = parsed.diagnostics := by
  have hstart : lexed.vocabulary.Covers (.ofStream lexed opts) := by
    constructor
    · exact List.Subset.refl _
    · exact .inl rfl
    · simp [ParseState.ofStream, Arena.withLimits]
  obtain ⟨root, s, ⟨⟨hs, -⟩, -⟩, rfl⟩ :=
    ((Parser.Vocabulary.covers_steady (.ofStream lexed opts)).program hstart).of_readProgram h
  exact ⟨s, hs, rfl, rfl, rfl⟩

/-- The names of a unit are words of its source, but for the name that stands
for missing ones. -/
theorem parsed_names {src : String} {opts : Options} {parsed : Parsed} {n : Node} {sym : Symbol}
    (h : parseSource src opts = .ok parsed) (hn : n ∈ parsed.ast.arena.nodes)
    (hsym : sym ∈ n.kind.names) :
    ∃ text, parsed.ast.names.resolve? sym = some text ∧
      (IsWord text ∨ text = Parser.missingName) := by
  obtain ⟨lexed, hlex, hread⟩ := lexed_of_parseSource h
  obtain ⟨s, hs, hnames, harena, -⟩ := readProgram_words hread
  rw [← harena] at hn
  rw [← hnames]
  rcases (hs.nodes n hn).names sym hsym with ⟨t, ht, hkind⟩ | hmissing
  · obtain ⟨text, htext, hword⟩ := lex_namesWord hlex ht sym hkind
    exact ⟨text, hs.extends_table sym text htext, .inl hword⟩
  · exact ⟨_, hmissing, .inr rfl⟩

end StagedCompiler
