import StagedCompiler.Proofs.Lexer.SourceCuts

/-!
Diagnostics come stage by stage. Each stage reports in its own kind and behind
what the stages before it reported, and an exceeded limit ends the compilation
at once, so that it is reported last and never twice.
-/

namespace StagedCompiler

def Diagnostics.kinds (ds : Diagnostics) : List DiagnosticKind :=
  ds.toList.map (·.kind)

namespace Diagnostics

variable {ds ds' : Diagnostics} {d : Diagnostic} {kind : DiagnosticKind}

@[simp] theorem kinds_empty : kinds #[] = [] :=
  rfl

@[simp] theorem kinds_push : kinds (ds.push d) = ds.kinds ++ [d.kind] := by
  simp [kinds]

@[simp] theorem kinds_append : kinds (ds ++ ds') = ds.kinds ++ ds'.kinds := by
  simp [kinds]

theorem kinds_eq_nil : ds.kinds = [] ↔ ds = #[] := by
  simp [kinds]

/-- Diagnostics of one kind are a run of that kind. -/
theorem kinds_eq_replicate (h : ∀ d ∈ ds, d.kind = kind) :
    ds.kinds = List.replicate ds.size kind := by
  simpa [kinds, List.eq_replicate_iff] using h

end Diagnostics

namespace Parser

/-- What a reader adds to the reports: a run of its own kind, which is empty in
strict mode. It gives up behind such a run with an exceeded limit, or in strict
mode with its first fault. -/
def InStage (α : Type) (p : Parser α) : Prop :=
  ∀ (c : ParseSettings) (s : ParseState), p.Post c s
    (fun _ s' => ∃ k, s'.diagnostics.kinds = s.diagnostics.kinds ++ List.replicate k .parse ∧
      (c.mode = .strict → k = 0))
    fun ds => ∃ k, (c.mode = .strict → k = 0) ∧
      (ds.kinds = s.diagnostics.kinds ++ List.replicate k .parse ++ [DiagnosticKind.capacity] ∨
        c.mode = .strict ∧ ds.kinds = s.diagnostics.kinds ++ [DiagnosticKind.parse])

section

variable {α β : Type} {p : Parser α} {f : α → Parser β}

/-- A step that reports nothing. -/
theorem inStage_of_quiet (h : ∀ c s, p.Post c s (fun _ s' => s'.diagnostics = s.diagnostics)
    fun _ => False) : InStage α p := by
  intro c s
  refine (h c s).mono (fun _ s' hquiet => ⟨0, ?_, fun _ => rfl⟩) fun _ hnever => hnever.elim
  simp [hquiet]

theorem inStage_bind (hp : InStage α p) (hf : ∀ a, InStage β (f a)) : InStage β (p >>= f) := by
  intro c s
  rw [post_bind]
  refine (hp c s).imp fun a s1 ⟨k, hk, hstrict⟩ => ?_
  refine (hf a c s1).mono ?_ ?_
  · rintro b s2 ⟨m, hm, hstrict'⟩
    refine ⟨k + m, ?_, fun hmode => by rw [hstrict hmode, hstrict' hmode]⟩
    rw [hm, hk, List.append_assoc, List.replicate_append_replicate]
  · rintro ds ⟨m, hstrict', hds | ⟨hmode, hds⟩⟩
    · refine ⟨k + m, fun hmode => by rw [hstrict hmode, hstrict' hmode], .inl ?_⟩
      rw [hds, hk, List.append_assoc s.diagnostics.kinds, List.replicate_append_replicate]
    · -- The strict reader had reported nothing before.
      refine ⟨0, fun _ => rfl, .inr ⟨hmode, ?_⟩⟩
      rw [hds, hk, hstrict hmode, List.replicate_zero, List.append_nil]

theorem inStage_fault (f : ParseFault) (span : Span) : InStage Unit (fault f span) := by
  intro c s
  rw [post_fault]
  constructor
  · intro hmode
    exact ⟨0, fun _ => rfl, .inr ⟨hmode, Diagnostics.kinds_push⟩⟩
  · intro hmode
    refine ⟨1, Diagnostics.kinds_push, fun hstrict => ?_⟩
    rw [hmode] at hstrict
    cases hstrict

theorem inStage_build (kind : NodeKind Symbol NodeId) (span : Span) :
    InStage Built (build kind span) := by
  intro c s
  rw [post_build]
  constructor
  · intro e _
    exact ⟨0, fun _ => rfl, .inl (by simp [Exceeded.diagnostic])⟩
  · intro _
    exact ⟨0, by simp [ParseState.grow], fun _ => rfl⟩

end

/-- Only faults and limits report anything, so every reader stays in its stage. -/
theorem inStage_stepClosed : StepClosed InStage where
  pure a := inStage_of_quiet fun _ _ => rfl
  bind := inStage_bind
  current := inStage_of_quiet fun _ _ => rfl
  peek n := inStage_of_quiet fun _ _ => rfl
  advance := inStage_of_quiet fun c s => by
    rw [post_advance]
    exact s.next_diagnostics
  advanceWhile skip := inStage_of_quiet fun _ _ => rfl
  fault := inStage_fault
  intern text := inStage_of_quiet fun _ _ => rfl
  resolve sym := inStage_of_quiet fun _ _ => rfl
  build := inStage_build
  consumed := inStage_of_quiet fun _ _ => rfl
  rounds := inStage_of_quiet fun _ _ => rfl
  tooDeep := fun c s => by
    rw [post_tooDeep]
    exact ⟨0, fun _ => rfl, .inl (by simp [Exceeded.diagnostic])⟩
  withMaxDepth hf := fun c s => hf c.maxDepth c s

end Parser

/-! ### The stages -/

/-- What all stages do at their end, seen from the result that is refused. -/
theorem refused_iff {α : Type} {opts : Options} {ds ds' : Diagnostics} {a : α} :
    (if opts.isStrict && !ds.isEmpty then Except.error ds else .ok a) = .error ds' ↔
      opts.mode = .strict ∧ ds ≠ #[] ∧ ds' = ds := by
  split
  · next hfault =>
    have hboth : opts.mode = .strict ∧ ds ≠ #[] := by simpa [Options.isStrict] using hfault
    simp [hboth, eq_comm]
  · next hclean =>
    have hnone : opts.mode = .strict → ds = #[] := by simpa [Options.isStrict] using hclean
    simpa using fun hmode hfault => absurd (hnone hmode) hfault

/-- Pieces are reported as lexical faults. -/
theorem Cut.kind_reports (cs : List Cut) : (cs.filterMap report?).map (·.kind) =
    List.replicate (cs.filterMap report?).length .lex := by
  rw [List.eq_replicate_iff, List.length_map]
  refine ⟨rfl, fun kind hkind => ?_⟩
  obtain ⟨d, hd, rfl⟩ := List.mem_map.mp hkind
  obtain ⟨c, -, hc⟩ := List.mem_filterMap.mp hd
  obtain ⟨fault, -, rfl⟩ := fault_of_report? hc
  rfl

section

variable {src : String} {limits : Limits} {opts : Options} {lexed : Lexed} {parsed : Parsed}
  {ds : Diagnostics}

theorem lex_kinds (h : lex src limits = .ok lexed) :
    lexed.diagnostics.kinds = List.replicate lexed.diagnostics.size .lex := by
  obtain ⟨cs, s, -, -, -, hreports, -⟩ := lex_passes h
  rw [Diagnostics.kinds, hreports, Cut.kind_reports, ← hreports, Array.length_toList]

theorem lex_error_kinds (h : lex src limits = .error ds) :
    ∃ l, ds.kinds = List.replicate l .lex ++ [DiagnosticKind.capacity] := by
  obtain ⟨cs, s, span, -, hreports, -⟩ := lex_passes_error h
  refine ⟨(cs.filterMap Cut.report?).length, ?_⟩
  rw [Diagnostics.kinds, hreports, List.map_append, Cut.kind_reports]
  rfl

theorem readProgram_kinds (h : readProgram lexed opts = .ok parsed) :
    ∃ k, parsed.diagnostics.kinds = lexed.diagnostics.kinds ++ List.replicate k .parse ∧
      (opts.mode = .strict → k = 0) := by
  have hstage := Parser.closed_program Parser.inStage_stepClosed (.ofStream lexed opts)
    (.ofStream lexed opts)
  obtain ⟨root, s, hs, rfl⟩ := hstage.of_readProgram h
  exact hs

theorem readProgram_error_kinds (h : readProgram lexed opts = .error ds) :
    ∃ k, (opts.mode = .strict → k = 0) ∧
      (ds.kinds = lexed.diagnostics.kinds ++ List.replicate k .parse ++ [DiagnosticKind.capacity] ∨
        opts.mode = .strict ∧ ds.kinds = lexed.diagnostics.kinds ++ [DiagnosticKind.parse]) :=
  (Parser.closed_program Parser.inStage_stepClosed (.ofStream lexed opts)
    (.ofStream lexed opts)).of_readProgram_error h

/-- A generator reports in its own kind only. -/
theorem generated_kinds (g : Target.Generated) :
    g.diagnostics.kinds = List.replicate g.diagnostics.size .codegen := by
  refine Diagnostics.kinds_eq_replicate fun d hd => ?_
  simp only [Target.Generated.diagnostics, List.mem_toArray, List.mem_filterMap] at hd
  obtain ⟨note, -, hnote⟩ := hd
  cases note with
  | unsupported fault span =>
    cases hnote
    rfl
  | skippedImport path => cases hnote
  | untypedLet name => cases hnote

/-! ### Whole compilations -/

/-- A source fails while it is cut into tokens, because its tokens have faults,
or while its tokens are read. -/
theorem parseSource_error_cases (h : parseSource src opts = .error ds) :
    lex src opts.limits = .error ds ∨ ∃ lexed, lex src opts.limits = .ok lexed ∧
      (opts.mode = .strict ∧ lexed.diagnostics ≠ #[] ∧ ds = lexed.diagnostics ∨
        (opts.mode = .strict → lexed.diagnostics = #[]) ∧ readProgram lexed opts = .error ds) := by
  cases hlex : lex src opts.limits with
  | error ds' =>
    rw [parseSource_of_lex_error opts hlex] at h
    cases h
    exact .inl rfl
  | ok lexed =>
    refine .inr ⟨lexed, rfl, ?_⟩
    rw [parseSource_of_lex_ok opts hlex] at h
    split at h
    · next hfault =>
      have hboth : opts.mode = .strict ∧ lexed.diagnostics ≠ #[] := by
        simpa [Options.isStrict] using hfault
      cases h
      exact .inl ⟨hboth.1, hboth.2, rfl⟩
    · next hclean =>
      have hnone : opts.mode = .strict → lexed.diagnostics = #[] := by
        simpa [Options.isStrict] using hclean
      refine .inr ⟨hnone, ?_⟩
      cases hread : readProgram lexed opts with
      | error ds' =>
        simp only [parse, hread, bind, Except.bind] at h
        exact h
      | ok parsed =>
        -- A strict reader that comes to an end has added nothing.
        simp only [parse, hread, bind, Except.bind, Parsed.accept, refused_iff] at h
        obtain ⟨hmode, hfault, -⟩ := h
        obtain ⟨k, hk, hzero⟩ := readProgram_kinds hread
        rw [hnone hmode, hzero hmode] at hk
        exact absurd (Diagnostics.kinds_eq_nil.mp hk) hfault

theorem parseSource_ok_kinds (h : parseSource src opts = .ok parsed) :
    ∃ l k, parsed.diagnostics.kinds = List.replicate l .lex ++ List.replicate k .parse := by
  obtain ⟨lexed, hlex, hread⟩ := lexed_of_parseSource h
  obtain ⟨k, hk, -⟩ := readProgram_kinds hread
  exact ⟨_, k, by rw [hk, lex_kinds hlex]⟩

theorem parseSource_error_lenient (hmode : opts.mode = .lenient)
    (h : parseSource src opts = .error ds) :
    ∃ l k, ds.kinds =
      List.replicate l .lex ++ List.replicate k .parse ++ [DiagnosticKind.capacity] := by
  rcases parseSource_error_cases h with hlex | ⟨lexed, hlex, ⟨hstrict, -⟩ | ⟨-, hread⟩⟩
  · obtain ⟨l, hl⟩ := lex_error_kinds hlex
    exact ⟨l, 0, by simpa using hl⟩
  · rw [hmode] at hstrict
    cases hstrict
  · obtain ⟨k, -, hk | ⟨hstrict, -⟩⟩ := readProgram_error_kinds hread
    · exact ⟨_, k, by rw [hk, lex_kinds hlex]⟩
    · rw [hmode] at hstrict
      cases hstrict

theorem parseSource_error_strict (hmode : opts.mode = .strict)
    (h : parseSource src opts = .error ds) :
    (∃ l, ds.kinds = List.replicate (l + 1) .lex) ∨
      (∃ l, ds.kinds = List.replicate l .lex ++ [DiagnosticKind.capacity]) ∨
        ds.kinds = [.parse] := by
  rcases parseSource_error_cases h with hlex | ⟨lexed, hlex, ⟨-, hfault, rfl⟩ | ⟨hclean, hread⟩⟩
  · exact .inr (.inl (lex_error_kinds hlex))
  · obtain ⟨l, hl⟩ := Nat.exists_eq_succ_of_ne_zero (mt Array.size_eq_zero_iff.mp hfault)
    exact .inl ⟨l, by rw [lex_kinds hlex, hl]⟩
  · obtain ⟨k, hzero, hk | ⟨-, hk⟩⟩ := readProgram_error_kinds hread
    · rw [hclean hmode, hzero hmode] at hk
      exact .inr (.inl ⟨0, hk⟩)
    · rw [hclean hmode] at hk
      exact .inr (.inr hk)

/-- A compilation fails in the parser, or with what the strict generator left
out. -/
theorem compileSource_error_cases (h : compileSource src opts = .error ds) :
    parseSource src opts = .error ds ∨ ∃ parsed, parseSource src opts = .ok parsed ∧
      opts.mode = .strict ∧ ∃ g : Target.Generated, g.diagnostics ≠ #[] ∧
        ds = parsed.diagnostics ++ g.diagnostics := by
  unfold compileSource at h
  cases hparse : parseSource src opts with
  | error ds' =>
    simp only [hparse, bind, Except.bind] at h
    cases h
    exact .inl rfl
  | ok parsed =>
    refine .inr ⟨parsed, rfl, ?_⟩
    simp only [hparse, bind, Except.bind] at h
    cases hg : Target.generate parsed.ast opts with
    | ok g => simp [hg, Parsed.withGenerated] at h
    | error gs =>
      simp only [hg, Parsed.withGenerated, Except.error.injEq] at h
      obtain ⟨hmode, hfault, rfl⟩ := refused_iff.mp hg
      exact ⟨hmode, _, hfault, h.symm⟩

end

/-- What a compilation reports, by the stages it went through. One that
succeeds reports lexical faults, then those of the parser, then those of the
generator, and in strict mode nothing. One that fails in lenient mode has
exceeded a limit, which is reported last and once. One that fails in strict mode
reports what a single stage met: the lexical faults of the source and a token
limit behind them, one fault or limit of the parser, or the faults of the
generator. -/
theorem diagnostics_are_staged (src : String) (opts : Options) :
    (∀ result, compileSource src opts = .ok result →
      (∃ l k g, result.diagnostics.kinds =
        List.replicate l .lex ++ List.replicate k .parse ++ List.replicate g .codegen) ∧
      (opts.mode = .strict → result.diagnostics = #[])) ∧
    (∀ ds, compileSource src opts = .error ds → opts.mode = .lenient →
      ∃ l k, ds.kinds = List.replicate l .lex ++ List.replicate k .parse ++ [.capacity]) ∧
    ∀ ds, compileSource src opts = .error ds → opts.mode = .strict →
      ds ≠ #[] ∧
      ((∃ l, ds.kinds = List.replicate l .lex ∨
          ds.kinds = List.replicate l .lex ++ [.capacity]) ∨
        ds.kinds = [.parse] ∨ ds.kinds = [.capacity] ∨
        ∃ g, ds.kinds = List.replicate g .codegen) := by
  refine ⟨fun result h => ?_, fun ds h hmode => ?_, fun ds h hmode => ?_⟩
  · constructor
    · obtain ⟨parsed, g, hparsed, -, rfl⟩ := (compileSource_ok_iff opts).mp h
      obtain ⟨l, k, hkinds⟩ := parseSource_ok_kinds hparsed
      exact ⟨l, k, _, by rw [Diagnostics.kinds_append, hkinds, generated_kinds]⟩
    · intro hmode
      have hopts : opts.inMode .strict = opts := by rw [← hmode]; rfl
      rw [← hopts] at h
      exact ((compileSource_strict_ok_iff opts).mp h).2
  · rcases compileSource_error_cases h with herror | ⟨-, -, hstrict, -⟩
    · exact parseSource_error_lenient hmode herror
    · rw [hmode] at hstrict
      cases hstrict
  · rcases compileSource_error_cases h with herror | ⟨parsed, hparsed, -, g, hfault, rfl⟩
    · have hkinds := parseSource_error_strict hmode herror
      constructor
      · rintro rfl
        rcases hkinds with ⟨l, hl⟩ | ⟨l, hl⟩ | hone
        · cases hl
        · exact absurd hl.symm (by simp)
        · cases hone
      · rcases hkinds with ⟨l, hl⟩ | ⟨l, hl⟩ | hone
        · exact .inl ⟨l + 1, .inl hl⟩
        · exact .inl ⟨l, .inr hl⟩
        · exact .inr (.inl hone)
    · -- A strict parser hands nothing over that it had to report.
      have hopts : opts.inMode .strict = opts := by rw [← hmode]; rfl
      rw [← hopts] at hparsed
      have hclean := ((parseSource_strict_ok_iff opts).mp hparsed).2
      rw [hclean, Array.empty_append]
      exact ⟨hfault, .inr (.inr (.inr ⟨_, generated_kinds g⟩))⟩

/-- A stray character, a missing semicolon and a range that stands alone, within
the limits and with a node too many; and the range in strict mode. -/
theorem diagnostics_are_staged_range :
    (∃ result, compileSource "fn f()\x7b$ 1..2\x7d" {} = .ok result ∧
      result.diagnostics.kinds = [.lex, .parse, .codegen] ∧
      ∃ l k g, result.diagnostics.kinds =
        List.replicate l .lex ++ List.replicate k .parse ++ List.replicate g .codegen) ∧
    (∃ ds, compileSource "fn f()\x7b$ 1..2\x7d" { limits := { maxNodes := 3 } } = .error ds ∧
      ds.kinds = [.lex, .parse, .capacity] ∧
      ∃ l k, ds.kinds = List.replicate l .lex ++ List.replicate k .parse ++ [.capacity]) ∧
    ∃ ds, compileSource "fn f()\x7b1..2;\x7d" { mode := .strict } = .error ds ∧
      ds.kinds = [.codegen] ∧ ds ≠ #[] := by
  refine ⟨?_, ?_, ?_⟩
  · have hkinds : (compileSource "fn f()\x7b$ 1..2\x7d" {}).toOption.map
        (·.diagnostics.kinds) = some [.lex, .parse, .codegen] := by
      decide +kernel
    cases h : compileSource "fn f()\x7b$ 1..2\x7d" {} with
    | error ds =>
      rw [h] at hkinds
      cases hkinds
    | ok result =>
      rw [h] at hkinds
      have hstaged := (diagnostics_are_staged "fn f()\x7b$ 1..2\x7d" {}).1 result h
      exact ⟨result, rfl, Option.some.inj hkinds, hstaged.1⟩
  · have hkinds : (reported Compilation.diagnostics (compileSource "fn f()\x7b$ 1..2\x7d"
        { limits := { maxNodes := 3 } })).kinds = [.lex, .parse, .capacity] := by
      decide +kernel
    obtain ⟨ds, h⟩ := exists_error_of_isOk (show (compileSource "fn f()\x7b$ 1..2\x7d"
      { limits := { maxNodes := 3 } }).isOk = false by decide +kernel)
    rw [h] at hkinds
    have hstaged := (diagnostics_are_staged "fn f()\x7b$ 1..2\x7d"
      { limits := { maxNodes := 3 } }).2.1 ds h rfl
    exact ⟨ds, h, hkinds, hstaged⟩
  · have hkinds : (reported Compilation.diagnostics (compileSource "fn f()\x7b1..2;\x7d"
        { mode := .strict })).kinds = [.codegen] := by
      decide +kernel
    obtain ⟨ds, h⟩ := exists_error_of_isOk (show (compileSource "fn f()\x7b1..2;\x7d"
      { mode := .strict }).isOk = false by decide +kernel)
    rw [h] at hkinds
    have hstaged := (diagnostics_are_staged "fn f()\x7b1..2;\x7d" { mode := .strict }).2.2 ds h rfl
    exact ⟨ds, h, hkinds, hstaged.1⟩

end StagedCompiler
