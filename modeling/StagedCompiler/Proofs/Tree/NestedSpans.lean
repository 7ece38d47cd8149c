import StagedCompiler.Proofs.Lexer.SourcePartition
import StagedCompiler.Proofs.Tree.SpanRows

/-!
Spans nest. The lexer goes over the source from front to back, so its tokens
stand one behind the other up to the closing one; the readers put nodes in rows
over them. So each node of a unit starts at a token, lies inside the source,
and holds its children, which follow one another if nothing was reported.
-/

namespace StagedCompiler

section

variable {src : String} {limits : Limits} {lexed : Lexed} {opts : Options} {parsed : Parsed}

/-- The tokens of a source stand one behind the other, and the closing one inside
the source. -/
theorem lex_laid (hsize : src.utf8ByteSize < Span.limit) (h : lex src limits = .ok lexed)
    (opts : Options) :
    Laid (.ofStream lexed opts) lexed.tokens.toList ∧
      lexed.tokens.toList =
        (splitEof lexed.tokens).1 ++ [⟨.eof, (splitEof lexed.tokens).2⟩] ∧
      (splitEof lexed.tokens).2.stop ≤ src.utf8ByteSize := by
  obtain ⟨tokens, gaps, hshared⟩ := sharedOut_of_lex hsize h
  obtain ⟨span, htokens, hstart, hstop⟩ := hshared.closing
  have hpush : lexed.tokens = tokens.toArray.push ⟨.eof, span⟩ := by
    apply Array.toList_inj.mp
    rw [htokens, Array.toList_push]
  have hsplit : splitEof lexed.tokens = (tokens, span) := by rw [hpush, splitEof_push]
  have hmem (t : Token) (ht : t ∈ lexed.tokens.toList) :
      t.span.start ≤ t.span.stop ∧ t.span.stop ≤ src.utf8ByteSize := by
    rw [htokens] at ht
    rcases List.mem_append.mp ht with ht | ht
    · have hinside := (hshared.inside t ht).2
      exact ⟨Nat.le_of_lt hinside.1, hinside.2⟩
    · cases List.mem_singleton.mp ht
      dsimp only
      omega
  refine ⟨⟨fun t ht => (hmem t ht).1, hshared.ordered.imp And.right, ?_, ?_⟩, ?_, ?_⟩
  · dsimp only [ParseSettings.ofStream]
    rw [hsplit, hstop]
    exact fun t ht => (hmem t ht).2
  · dsimp only [ParseSettings.ofStream]
    rw [hsplit, hstart, hstop]
  · rw [hsplit, htokens]
  · rw [hsplit]
    exact Nat.le_of_eq hstop

/-- All nodes of a unit stand where they should. -/
theorem parseSource_fits (hsize : src.utf8ByteSize < Span.limit)
    (h : parseSource src opts = .ok parsed) :
    ∃ lexed, lex src opts.limits = .ok lexed ∧
      (splitEof lexed.tokens).2.stop ≤ src.utf8ByteSize ∧
      ∀ (id : NodeId) (n : Node), parsed.ast.arena.nodes[id]? = some n →
        NodeFits (.ofStream lexed opts) lexed.tokens.toList parsed.ast.arena n := by
  obtain ⟨lexed, hlex, hread⟩ := lexed_of_parseSource h
  obtain ⟨hlaid, htokens, hstop⟩ := lex_laid hsize hlex opts
  have hsound : Parser.Sound (.ofStream lexed opts) lexed.tokens.toList
      (.ofStream lexed opts) := by
    refine ⟨hlaid, ?_, ?_⟩
    · rw [htokens]
      exact List.suffix_refl _
    · intro id n hn
      simp [ParseState.ofStream, Arena.withLimits] at hn
  obtain ⟨root, s, hs, rfl⟩ := (Parser.program_sound hsound).of_readProgram hread
  exact ⟨lexed, hlex, hstop, hs.fits⟩

end

/-- Each node of a unit starts at a token of its source and ends inside the
source, and its children lie inside it. If nothing was reported, the children
stand one behind the other. -/
theorem spans_nest {src : String} (hsize : src.utf8ByteSize < Span.limit) {opts : Options}
    {parsed : Parsed} (h : parseSource src opts = .ok parsed) :
    ∃ lexed, tokenize src opts = .ok lexed ∧
      ∀ (id : NodeId) (n : Node), parsed.ast.arena.nodes[id]? = some n →
        (∃ t ∈ lexed.tokens.toList, t.span.place = n.span.place) ∧
        n.span.start ≤ n.span.stop ∧ n.span.stop ≤ src.utf8ByteSize ∧
        (∀ child ∈ n.kind.children, ∃ m, parsed.ast.arena.nodes[child]? = some m ∧
          n.span.start ≤ m.span.start ∧ m.span.start ≤ m.span.stop ∧
          m.span.stop ≤ n.span.stop) ∧
        (parsed.diagnostics = #[] → n.kind.children.Pairwise fun i j => ∀ m m',
          parsed.ast.arena.nodes[i]? = some m → parsed.ast.arena.nodes[j]? = some m' →
            m.span.stop ≤ m'.span.start) := by
  obtain ⟨lexed, hlexed, -⟩ := parseSource_ok_iff.mp h
  obtain ⟨lexed', hlex, hstop, hfits⟩ := parseSource_fits hsize h
  cases (tokenize_ok_iff.mp hlexed).1.symm.trans hlex
  refine ⟨lexed, hlexed, ?_⟩
  intro id n hn
  have hnode := hfits id n hn
  refine ⟨hnode.starts, hnode.forward, Nat.le_trans hnode.bounded hstop, ?_, ?_⟩
  · intro child hchild
    obtain ⟨m, hm, hstart, hend⟩ := hnode.inside child hchild
    exact ⟨m, hm, hstart, (hfits child m hm).forward, hend⟩
  · intro hclean
    -- A unit without diagnostics is what the strict mode reads, too.
    obtain ⟨_, -, -, hstrict⟩ :=
      parseSource_fits hsize (parseSource_strict_of_clean opts h hclean)
    exact (hstrict id n hn).apart rfl

/-- The arguments of a call follow one another inside it. -/
theorem spans_nest_call : ∃ parsed,
    parseSource "fn f() \x7b g(1, 2 + 3); \x7d" {} = .ok parsed ∧ parsed.diagnostics = #[] ∧
      ∃ n, parsed.ast.arena.nodes[5]? = some n ∧ n.kind = .call 0 [1, 4] ∧
        n.span.stop ≤ ("fn f() \x7b g(1, 2 + 3); \x7d").utf8ByteSize ∧
        [0, 1, 4].Pairwise fun i j => ∀ m m', parsed.ast.arena.nodes[i]? = some m →
          parsed.ast.arena.nodes[j]? = some m' → m.span.stop ≤ m'.span.start := by
  obtain ⟨parsed, hparsed⟩ := exists_of_isOk
    (show (parseSource "fn f() \x7b g(1, 2 + 3); \x7d" {}).isOk by decide +kernel)
  have hclean :
      reported Parsed.diagnostics (parseSource "fn f() \x7b g(1, 2 + 3); \x7d" {}) = #[] := by
    decide +kernel
  have hkind : (parseSource "fn f() \x7b g(1, 2 + 3); \x7d" {}).toOption.bind
      (fun parsed => parsed.ast.arena.nodes[5]?.map (·.kind)) = some (.call 0 [1, 4]) := by
    decide +kernel
  rw [hparsed] at hclean hkind
  obtain ⟨n, hn, hkind⟩ := Option.map_eq_some_iff.mp hkind
  obtain ⟨lexed, -, hnodes⟩ := spans_nest (by decide +kernel) hparsed
  obtain ⟨-, -, hstop, -, hapart⟩ := hnodes 5 n hn
  have hchildren := hapart hclean
  rw [hkind] at hchildren
  exact ⟨parsed, hparsed, hclean, n, hn, hkind, hstop, hchildren⟩

end StagedCompiler
