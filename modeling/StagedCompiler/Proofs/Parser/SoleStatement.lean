import StagedCompiler.Proofs.Lexer.Runs
import StagedCompiler.Proofs.Parser.ExprCompleteness
import StagedCompiler.Proofs.Parser.Totality
import StagedCompiler.Proofs.Tree.ParsedShape

/-!
Readers of streams that are known token by token, with room for all that they
build. `Left` says which tokens are left and how much room; each step of a
reader takes from both. A source of one function with one statement is read as
that statement is, so a run of the reader of statements is all it takes to know
the tree of the source, or the fault that ends it.
-/

namespace StagedCompiler

namespace Tree

def SoleBlock (P : Tree → Prop) (t : Tree) : Prop :=
  ∃ stmt span, P stmt ∧ t = node (.block [stmt]) span

/-- A program of one function without parameters and result, whose one statement
has the property. -/
def SoleStatement (P : Tree → Prop) (t : Tree) : Prop :=
  ∃ name body span span', SoleBlock P body ∧
    t = node (.program [node (.function name false [] none body) span]) span'

end Tree

namespace Parser

/-- Tokens of the given kinds are left, no name was added to the table, and there
is room for `room` more nodes. -/
structure Left (names : Interner) (c : ParseSettings) (s : ParseState) (kinds : List TokenKind)
    (room : Nat) : Prop where
  kinds : s.rest.map Token.kind = kinds
  count : s.consumed + s.rest.length = c.tokenCount
  nodes : s.arena.size + room ≤ s.arena.maxNodes
  width : 2 ≤ s.arena.maxChildren
  table : s.names = names

section

variable {names : Interner} {c : ParseSettings} {s : ParseState} {kind : TokenKind}
  {kinds : List TokenKind} {room : Nat} {E : Diagnostics → Prop}

theorem Left.front (h : Left names c s (kind :: kinds) room) : (front c s).kind = kind := by
  obtain ⟨t, ts, hrest, hkind, -⟩ := List.map_eq_cons_iff.mp h.kinds
  rw [front_of_rest hrest, hkind]

theorem Left.next (h : Left names c s (kind :: kinds) room) : Left names c s.next kinds room := by
  obtain ⟨t, ts, hrest, -, hkinds⟩ := List.map_eq_cons_iff.mp h.kinds
  have hcount := h.count
  have hconsumed := s.next_consumed (by simp [hrest])
  rw [hrest, List.length_cons] at hcount
  refine ⟨by simpa [hrest] using hkinds, ?_, by simpa using h.nodes, by simpa using h.width,
    by rw [s.next_names, h.table]⟩
  rw [ParseState.next_rest, hrest, List.tail_cons]
  omega

theorem Left.grow (h : Left names c s kinds (room + 1)) (n : Node) :
    Left names c (s.grow n) kinds room := by
  have hnodes := h.nodes
  refine ⟨h.kinds, h.count, ?_, h.width, h.table⟩
  rw [ParseState.size_grow]
  change _ ≤ s.arena.maxNodes
  omega

theorem Left.length (h : Left names c s kinds room) :
    s.consumed + kinds.length = c.tokenCount := by
  have hcount := h.count
  have hlength := congrArg List.length h.kinds
  rw [List.length_map] at hlength
  omega

theorem Left.post_expect {Q : Span → ParseState → Prop} (h : Left names c s (kind :: kinds) room)
    (hQ : ∀ span, Q span s.next) : (expect kind).Post c s Q E := by
  rw [Parser.post_expect, if_pos h.front]
  exact hQ _

theorem Left.post_eat {Q : Bool → ParseState → Prop} (h : Left names c s (kind :: kinds) room)
    (hQ : Q true s.next) : (eat kind).Post c s Q E := by
  rw [Parser.post_eat, h.front, if_pos rfl]
  exact hQ

theorem Left.post_eat_other {k : TokenKind} {Q : Bool → ParseState → Prop}
    (h : Left names c s (kind :: kinds) room) (hk : kind ≠ k) (hQ : Q false s) :
    (eat k).Post c s Q E := by
  rw [Parser.post_eat, h.front, if_neg hk]
  exact hQ

theorem Left.post_expectIdent {sym : Symbol} {Q : Symbol × Span → ParseState → Prop}
    (h : Left names c s (.ident sym :: kinds) room) (hQ : ∀ span, Q (sym, span) s.next) :
    expectIdent.Post c s Q E := by
  rw [Parser.post_expectIdent]
  constructor
  · intro sym' hsym
    cases hsym.symm.trans h.front
    exact hQ _
  · intro hnone
    exact absurd h.front (hnone sym)

theorem Left.post_build {node : NodeKind Symbol NodeId} {span : Span}
    {Q : Built → ParseState → Prop} (h : Left names c s kinds (room + 1))
    (hwidth : node.children.length ≤ 2)
    (hQ : Q ⟨s.arena.size, node, span⟩ (s.grow ⟨node, span⟩)) : (build node span).Post c s Q E := by
  have hnodes := h.nodes
  have hfits : s.arena.refusal? node = none :=
    (s.arena.refusal?_eq_none node).mpr ⟨Nat.le_trans hwidth h.width, by omega⟩
  rw [Parser.post_build, hfits]
  exact ⟨fun _ hnone => (by cases hnone), fun _ => hQ⟩

/-! ### One statement -/

variable {P : Tree → Prop} {room' depth : Nat}

/-- A block with one statement ends behind it. -/
theorem stmtsUntil_one {stmt : Parser Built} (h : Left names c s (kind :: kinds) room)
    (hkinds : kinds ≠ []) (hkind : kind ∉ [.punct .rbrace, .eof, .punct .semicolon])
    (hstmt : stmt.Post c s
      (fun b s' => Left names c s' [.punct .rbrace] room' ∧ Stands names s' b.id P) E) :
    (stmtsUntil stmt (c.tokenCount + 1) #[]).Post c s
      (fun ids s' => Left names c s' [.punct .rbrace] room' ∧
        ∃ id, ids = [id] ∧ Stands names s' id P) E := by
  simp only [List.mem_cons, List.not_mem_nil, or_false, not_or] at hkind
  obtain ⟨hbrace, heof, hsemicolon⟩ := hkind
  have hbefore := h.length
  have hmore : 0 < kinds.length := List.length_pos_iff.mpr hkinds
  rw [List.length_cons] at hbefore
  unfold stmtsUntil
  rw [post_bind, post_isAt, post_bind, post_isAt, h.front]
  simp only [hbrace, heof, decide_false, Bool.or_self, Bool.false_eq_true, if_false]
  rw [post_bind]
  apply h.post_eat_other hsemicolon
  simp only [Bool.false_eq_true, if_false]
  rw [post_bind, post_consumed, post_bind]
  refine hstmt.imp ?_
  rintro b s1 ⟨hs1, hb⟩
  have hafter := hs1.length
  rw [List.length_singleton] at hafter
  rw [post_bind, post_consumed, if_neg (by omega)]
  obtain ⟨fuel, hfuel⟩ : ∃ n, c.tokenCount = n + 1 := ⟨c.tokenCount - 1, by omega⟩
  rw [hfuel]
  unfold stmtsUntil
  rw [post_bind, post_isAt, post_bind, post_isAt, hs1.front]
  exact ⟨hs1, b.id, rfl, hb⟩

def ReadsSole (names : Interner) (c : ParseSettings) (depth : Nat) (kinds : List TokenKind)
    (room room' : Nat) (P : Tree → Prop) (E : Diagnostics → Prop) : Prop :=
  ∀ s, Left names c s kinds room → (stmt depth (block depth) (conditional depth)).Post c s
    (fun b s' => Left names c s' [.punct .rbrace] room' ∧ Stands names s' b.id P) E

/-- A block around one statement is read as just that. -/
theorem block_sole (h : Left names c s (.punct .lbrace :: kind :: kinds) room)
    (hkinds : kinds ≠ []) (hkind : kind ∉ [.punct .rbrace, .eof, .punct .semicolon])
    (hstmt : ReadsSole names c depth (kind :: kinds) room (room' + 1) P E) :
    (block (depth + 1)).Post c s
      (fun b s' => Left names c s' [] room' ∧ Stands names s' b.id (Tree.SoleBlock P)) E := by
  unfold block braced
  rw [post_bind]
  refine h.post_expect fun start => ?_
  rw [post_bind, post_rounds, post_bind]
  refine (stmtsUntil_one h.next hkinds hkind (hstmt _ h.next)).imp ?_
  rintro ids s1 ⟨hs1, id, rfl, hid⟩
  rw [post_bind]
  refine hs1.post_expect fun close => ?_
  apply hs1.next.post_build (by simp [NodeKind.children])
  have hlater : Grown names s1 s1.next := .of_arena s1.next_arena
  exact ⟨hs1.next.grow _, stands_grow ⟨_, _, (hid.later hlater).lookup, rfl⟩⟩

def soleHead (name : Symbol) : List TokenKind :=
  [.keyword .fnKw, .ident name, .punct .lparen, .punct .rparen, .punct .lbrace]

/-- A function of one statement is read if the statement is. -/
theorem item_sole {name : Symbol} (h : Left names c s (soleHead name ++ kind :: kinds) room)
    (hkinds : kinds ≠ []) (hkind : kind ∉ [.punct .rbrace, .eof, .punct .semicolon])
    (hstmt : ReadsSole names c depth (kind :: kinds) room (room' + 2) P E) :
    (item (depth + 1)).Post c s
      (fun b s' => Left names c s' [] room' ∧ Stands names s' b.id (fun t =>
        ∃ name body span, Tree.SoleBlock P body ∧
          t = .node (.function name false [] none body) span)) E := by
  unfold item
  rw [post_bind, post_current, post_bind]
  apply Left.post_eat_other h (by decide)
  rw [post_bind, post_isAt, Left.front h]
  simp only [reduceCtorEq, TokenKind.keyword.injEq, decide_false, Bool.false_eq_true, if_false]
  unfold function
  rw [post_bind]
  refine Left.post_expect h fun _ => ?_
  have hname := Left.next h
  rw [post_bind]
  refine Left.post_expectIdent hname fun _ => ?_
  have hopen := Left.next hname
  rw [post_bind]
  refine Left.post_expect hopen fun _ => ?_
  have hclose := Left.next hopen
  rw [post_bind]
  unfold commaList
  rw [post_bind, post_rounds]
  unfold itemsUntil
  rw [post_bind, post_isAt, post_bind, post_isAt, Left.front hclose]
  simp only [decide_true, Bool.true_or, if_true]
  rw [post_pure, post_bind]
  refine Left.post_expect hclose fun _ => ?_
  have hbody := Left.next hclose
  rw [post_bind]
  unfold after
  rw [post_bind]
  apply Left.post_eat_other hbody (by decide)
  simp only [Bool.false_eq_true, if_false]
  rw [post_pure, post_bind]
  refine (block_sole hbody hkinds hkind hstmt).imp ?_
  rintro b s1 ⟨hs1, hb⟩
  apply hs1.post_build (by simp [NodeKind.children])
  exact ⟨hs1.grow _, stands_grow ⟨_, _, _, hb.lookup, rfl⟩⟩

/-- A program of that function is read as well. -/
theorem program_sole {name : Symbol} (hmax : c.maxDepth = depth + 1)
    (h : Left names c s (soleHead name ++ kind :: kinds) room)
    (hkinds : kinds ≠ []) (hkind : kind ∉ [.punct .rbrace, .eof, .punct .semicolon])
    (hstmt : ReadsSole names c depth (kind :: kinds) room 3 P E) :
    program.Post c s (fun b s' => s'.names = names ∧
      Stands names s' b.id (Tree.SoleStatement P)) E := by
  have hlength := Left.length h
  obtain ⟨fuel, hfuel⟩ : ∃ n, c.tokenCount = n + 1 :=
    ⟨c.tokenCount - 1, by simp [soleHead] at hlength; omega⟩
  unfold program
  rw [post_bind, post_current, post_bind, post_read, hmax, post_bind, post_rounds, hfuel, post_bind]
  unfold itemsToEnd
  rw [post_bind, post_current, Left.front h]
  dsimp only
  rw [post_bind]
  refine (item_sole h hkinds hkind hstmt).imp ?_
  rintro b s1 ⟨hs1, hb⟩
  have hend : (front c s1).kind = .eof := by
    simp [Parser.front, List.map_eq_nil_iff.mp hs1.kinds]
  unfold itemsToEnd
  rw [post_bind, post_current, hend]
  dsimp only
  rw [post_pure, post_bind, post_current]
  apply hs1.post_build (by simp [NodeKind.children])
  refine ⟨hs1.table, stands_grow ?_⟩
  obtain ⟨name, body, span, hbody, htree⟩ := hb.lookup
  exact ⟨name, body, span, _, hbody, by rw [← htree]; rfl⟩

end

end Parser

/-! ### Sources -/

section

variable {src : String} {lexed : Lexed} {opts : Options}

/-- A stream without faults is accepted in either mode if it can be read. -/
theorem parseSource_of_clean (hlex : lex src opts.limits = .ok lexed)
    (hclean : lexed.diagnostics = #[]) : parseSource src opts = readProgram lexed opts := by
  have haccept : (opts.isStrict && !lexed.diagnostics.isEmpty) = false := by simp [hclean]
  rw [parseSource_of_lex_ok opts hlex, haccept]
  unfold parse
  cases hmode : opts.mode with
  | lenient =>
    have hlenient : opts.isStrict = false := by simp [Options.isStrict, hmode]
    cases readProgram lexed opts <;> simp [bind, Except.bind, Parsed.accept, hlenient]
  | strict =>
    have hsame : opts.inMode .strict = opts := by rw [Options.inMode, ← hmode]
    have hstep := readProgram_inStep opts lexed
    rw [hsame] at hstep
    cases hstep with
    | same parsed _ hstrict hquiet =>
      simp [hstrict, bind, Except.bind, Parsed.accept, hquiet, hclean]
    | stopped d later _ hstrict => simp [hstrict, bind, Except.bind]

/-- The tokens of a known stream without the closing one. -/
theorem kinds_splitEof {limits : Limits} {kinds : List TokenKind}
    (hlex : lex src limits = .ok lexed)
    (hkinds : lexed.tokens.toList.map Token.kind = kinds ++ [TokenKind.eof]) :
    (splitEof lexed.tokens).1.map Token.kind = kinds := by
  obtain ⟨before, span, hend⟩ := (lex_tokens hlex).2
  rw [hend, Array.toList_push, List.map_append] at hkinds
  rw [hend]
  simpa [splitEof] using List.append_cancel_right hkinds

/-- A source of one function with one statement gives the tree of that
statement, or the fault that ends its reading. -/
theorem parseSource_sole {name : Symbol} {kind : TokenKind} {kinds : List TokenKind}
    {depth room : Nat} {P : Tree → Prop} {E : Diagnostics → Prop}
    (hlex : lex src opts.limits = .ok lexed) (hclean : lexed.diagnostics = #[])
    (hstream : lexed.tokens.toList.map Token.kind =
      (Parser.soleHead name ++ kind :: kinds) ++ [TokenKind.eof])
    (hmax : opts.limits.maxDepth = depth + 1) (hwidth : 2 ≤ opts.limits.maxChildren)
    (hnodes : room ≤ opts.limits.clamped.maxNodes) (hkinds : kinds ≠ [])
    (hkind : kind ∉ [.punct .rbrace, .eof, .punct .semicolon])
    (hstmt : Parser.ReadsSole lexed.names (.ofStream lexed opts) depth (kind :: kinds) room 3 P E) :
    (∃ parsed, parseSource src opts = .ok parsed ∧ parsed.ast.tree.SoleStatement P) ∨
      ∃ ds, parseSource src opts = .error ds ∧ E ds := by
  have hempty : (ParseState.ofStream lexed opts).arena.size = 0 := rfl
  have hleft : Parser.Left lexed.names (.ofStream lexed opts) (.ofStream lexed opts)
      (Parser.soleHead name ++ kind :: kinds) room :=
    ⟨kinds_splitEof hlex hstream, Nat.zero_add _, by rw [hempty, Nat.zero_add]; exact hnodes,
      hwidth, rfl⟩
  have hrun := Parser.program_sole hmax hleft hkinds hkind hstmt
  rw [parseSource_of_clean hlex hclean]
  cases hread : readProgram lexed opts with
  | error ds => exact .inr ⟨ds, rfl, hrun.of_readProgram_error hread⟩
  | ok parsed =>
    obtain ⟨root, s, ⟨hnames, hroot⟩, hparsed⟩ := hrun.of_readProgram hread
    refine .inl ⟨parsed, rfl, ?_⟩
    have htree := hroot.lookup
    rw [← hnames] at htree
    rw [hparsed]
    exact htree

end

end StagedCompiler
