import StagedCompiler.Compile
import StagedCompiler.Proofs.Parser.EveryReader
import StagedCompiler.Proofs.Parser.Running

/-!
The strict and the lenient mode agree. Up to the first diagnostic the two runs
of a reader are one and the same; there the strict run ends, with what the
lenient run reports first.
-/

namespace StagedCompiler

def reported {α : Type} (carried : α → Diagnostics) : Except Diagnostics α → Diagnostics
  | .ok a => carried a
  | .error ds => ds

/-- How two runs compare that start with the same diagnostics: they end alike
with nothing reported, or the strict one ends with the first diagnostic that
the lenient one reports. -/
inductive InStep {α : Type} (before : Diagnostics) (carried : α → Diagnostics)
    (lenient strict : Except Diagnostics α) : Prop where
  | same (a : α) (hlenient : lenient = .ok a) (hstrict : strict = .ok a)
      (hquiet : carried a = before)
  | stopped (d : Diagnostic) (later : Diagnostics)
      (hlenient : reported carried lenient = before.push d ++ later)
      (hstrict : strict = .error (before.push d))

namespace InStep

variable {α β : Type} {before : Diagnostics} {carried : α → Diagnostics}
  {lenient strict : Except Diagnostics α}

/-- A lenient run keeps the diagnostics it started with in front. -/
theorem keeps (h : InStep before carried lenient strict) :
    ∃ later, reported carried lenient = before ++ later := by
  cases h with
  | same a hlenient _ hquiet => exact ⟨#[], by simp [hlenient, reported, hquiet]⟩
  | stopped d later hlenient _ => exact ⟨#[d] ++ later, by simp [hlenient]⟩

theorem of_quiet (h : InStep before carried lenient strict)
    (hquiet : reported carried lenient = before) :
    ∃ a, lenient = .ok a ∧ strict = .ok a ∧ carried a = before := by
  cases h with
  | same a hlenient hstrict hcarried => exact ⟨a, hlenient, hstrict, hcarried⟩
  | stopped d later hlenient _ =>
    have hsize := congrArg Array.size (hlenient.symm.trans hquiet)
    simp only [Array.size_append, Array.size_push] at hsize
    omega

/-- The strict run ends with the first thing that the lenient one reports. -/
theorem of_first (h : InStep before carried lenient strict) {d : Diagnostic}
    {later : List Diagnostic}
    (hfirst : reported carried lenient = before ++ (d :: later).toArray) :
    strict = .error (before.push d) := by
  cases h with
  | same a hlenient _ hquiet =>
    have hsize := congrArg Array.size hfirst
    simp [hlenient, reported, hquiet] at hsize
  | stopped d' later' hlenient hstrict =>
    have heq : before.push d' ++ later' = before ++ (d :: later).toArray :=
      hlenient.symm.trans hfirst
    have hd : d' = d := by
      have hlists := congrArg Array.toList heq
      simp only [Array.toList_append, Array.toList_push, List.append_assoc,
        List.append_cancel_left_eq, List.singleton_append, List.cons.injEq] at hlists
      exact hlists.1
    rw [hstrict, hd]

/-- A last step that only reshapes the result changes nothing. -/
theorem map {f : α → β} {carried' : β → Diagnostics}
    (h : InStep before carried lenient strict) (hf : ∀ a, carried' (f a) = carried a) :
    InStep before carried' (f <$> lenient) (f <$> strict) := by
  cases h with
  | same a hlenient hstrict hquiet =>
    refine .same (f a) (by rw [hlenient]; rfl) (by rw [hstrict]; rfl) ?_
    rw [hf, hquiet]
  | stopped d later hlenient hstrict =>
    refine .stopped d later ?_ (by rw [hstrict]; rfl)
    cases lenient with
    | ok a => exact (hf a).trans hlenient
    | error ds => exact hlenient

end InStep

namespace Parser

/-- The two modes' runs of a reader compare, from wherever they start. -/
def Agrees (α : Type) (p : Parser α) : Prop :=
  ∀ (c : ParseSettings) (s : ParseState), InStep s.diagnostics (fun r => r.2.diagnostics)
    (p { c with mode := .lenient } s) (p { c with mode := .strict } s)

/-- A step that neither looks at the mode nor reports anything. -/
theorem agrees_of_quiet {α : Type} {p : Parser α}
    (h : ∀ (c : ParseSettings) (s : ParseState), ∃ a s', s'.diagnostics = s.diagnostics ∧
      ∀ mode, p { c with mode := mode } s = .ok (a, s')) : Agrees α p := by
  intro c s
  obtain ⟨a, s', hquiet, hrun⟩ := h c s
  exact .same (a, s') (hrun .lenient) (hrun .strict) hquiet

/-- In sequence, the first of two readers that faults decides. -/
theorem agrees_bind {α β : Type} {p : Parser α} {f : α → Parser β} (hp : Agrees α p)
    (hf : ∀ a, Agrees β (f a)) : Agrees β (p >>= f) := by
  intro c s
  simp only [run_bind]
  rcases hp c s with ⟨⟨a, s'⟩, hlenient, hstrict, hquiet⟩ | ⟨d, later, hlenient, hstrict⟩
  · rw [hlenient, hstrict]
    have hnext := hf a c s'
    rw [show s'.diagnostics = s.diagnostics from hquiet] at hnext
    exact hnext
  · rw [hstrict]
    cases hrun : p { c with mode := .lenient } s with
    | error ds =>
      rw [hrun] at hlenient
      exact .stopped d later hlenient rfl
    | ok r =>
      -- The strict run is over; the lenient one goes on and may only add.
      obtain ⟨a, s'⟩ := r
      rw [hrun] at hlenient
      obtain ⟨more, hmore⟩ := (hf a c s').keeps
      refine .stopped d (later ++ more) ?_ rfl
      rw [hmore, show s'.diagnostics = s.diagnostics.push d ++ later from hlenient,
        Array.append_assoc]

theorem agrees_fault (f : ParseFault) (span : Span) : Agrees Unit (fault f span) := by
  intro c s
  exact .stopped ⟨.parse, f.message, some span⟩ #[] rfl rfl

/-- A diagnostic that ends both runs. -/
theorem inStep_both_stop {α : Type} {before : Diagnostics} {carried : α → Diagnostics}
    (d : Diagnostic) :
    InStep before carried (.error (before.push d)) (.error (before.push d)) :=
  .stopped d #[] rfl rfl

theorem agrees_build (kind : NodeKind Symbol NodeId) (span : Span) :
    Agrees Built (build kind span) := by
  intro c s
  unfold build
  cases s.arena.refusal? kind with
  | some e => exact inStep_both_stop _
  | none => exact .same _ rfl rfl rfl

theorem agrees_advance : Agrees Unit advance := by
  refine agrees_of_quiet fun c s => ⟨(), s.next, s.next_diagnostics, fun mode => ?_⟩
  unfold advance ParseState.next
  cases s.rest <;> rfl

/-- Every step agrees in both modes, and so does what is put together from
steps. -/
theorem agrees_stepClosed : StepClosed Agrees where
  pure a := agrees_of_quiet fun _ s => ⟨a, s, rfl, fun _ => rfl⟩
  bind := agrees_bind
  current := agrees_of_quiet fun c s => ⟨front c s, s, rfl, fun _ => rfl⟩
  peek n := agrees_of_quiet fun c s =>
    ⟨(s.rest.drop n).headD ⟨.eof, c.eofSpan⟩, s, rfl, fun _ => rfl⟩
  advance := agrees_advance
  advanceWhile skip := agrees_of_quiet fun _ s =>
    ⟨(), s.skip (s.rest.takeWhile fun t => skip t.kind).length, rfl, fun _ => rfl⟩
  fault := agrees_fault
  intern text := agrees_of_quiet fun _ s => 
    ⟨(s.names.intern text).1, { s with names := (s.names.intern text).2 }, rfl, fun _ => rfl⟩
  resolve sym := agrees_of_quiet fun _ s => ⟨s.names.resolve sym, s, rfl, fun _ => rfl⟩
  build := agrees_build
  consumed := agrees_of_quiet fun _ s => ⟨s.consumed, s, rfl, fun _ => rfl⟩
  rounds := agrees_of_quiet fun c s => ⟨c.tokenCount + 1, s, rfl, fun _ => rfl⟩
  tooDeep := fun _ _ => inStep_both_stop _
  withMaxDepth hf := fun c s => hf c.maxDepth c s

end Parser

def Options.inMode (opts : Options) (mode : Mode) : Options :=
  { opts with mode }

section

variable {src : String} {lexed : Lexed} {parsed : Parsed} (opts : Options)

theorem readProgram_inStep (lexed : Lexed) :
    InStep lexed.diagnostics Parsed.diagnostics (readProgram lexed (opts.inMode .lenient))
      (readProgram lexed (opts.inMode .strict)) := by
  rw [readProgram_eq, readProgram_eq]
  exact (Parser.closed_program Parser.agrees_stepClosed (.ofStream lexed opts)
    (.ofStream lexed opts)).map fun _ => rfl

theorem parse_lenient : parse lexed (opts.inMode .lenient) =
    readProgram lexed (opts.inMode .lenient) := by
  unfold parse
  cases readProgram lexed (opts.inMode .lenient) <;> rfl

/-- Over a clean stream strict parsing stops at the first report of lenient
parsing. -/
theorem parse_inStep (hclean : lexed.diagnostics = #[]) :
    InStep #[] Parsed.diagnostics (parse lexed (opts.inMode .lenient))
      (parse lexed (opts.inMode .strict)) := by
  have hread := readProgram_inStep opts lexed
  rw [hclean] at hread
  rw [parse_lenient]
  cases hread with
  | same parsed hlenient hstrict hquiet =>
    refine .same parsed hlenient ?_ hquiet
    simp [parse, hstrict, bind, Except.bind, Parsed.accept, hquiet]
  | stopped d later hlenient hstrict =>
    refine .stopped d later hlenient ?_
    simp [parse, hstrict, bind, Except.bind]

theorem parseSource_of_lex_error {ds : Diagnostics} (hlex : lex src opts.limits = .error ds) :
    parseSource src opts = .error ds := by
  simp [parseSource, tokenize, hlex, bind, Except.bind]

theorem parseSource_of_lex_ok (hlex : lex src opts.limits = .ok lexed) :
    parseSource src opts =
      if opts.isStrict && !lexed.diagnostics.isEmpty then .error lexed.diagnostics
      else parse lexed opts := by
  simp only [parseSource, tokenize, hlex, bind, Except.bind, Lexed.accept]
  cases opts.isStrict && !lexed.diagnostics.isEmpty <;> rfl

theorem parseSource_lenient (hlex : lex src opts.limits = .ok lexed) :
    parseSource src (opts.inMode .lenient) = parse lexed (opts.inMode .lenient) :=
  parseSource_of_lex_ok (opts.inMode .lenient) hlex

theorem parseSource_strict (hlex : lex src opts.limits = .ok lexed) :
    parseSource src (opts.inMode .strict) =
      if lexed.diagnostics = #[] then parse lexed (opts.inMode .strict)
      else .error lexed.diagnostics := by
  rw [parseSource_of_lex_ok (opts.inMode .strict) hlex]
  split <;> simp_all [Options.isStrict, Options.inMode]

theorem parseSource_inStep (hlex : lex src opts.limits = .ok lexed)
    (hclean : lexed.diagnostics = #[]) :
    InStep #[] Parsed.diagnostics (parseSource src (opts.inMode .lenient))
      (parseSource src (opts.inMode .strict)) := by
  rw [parseSource_lenient opts hlex, parseSource_strict opts hlex, if_pos hclean]
  exact parse_inStep opts hclean

/-- What a lenient reader carries starts with the lexical faults. -/
theorem lexical_faults_first (hlex : lex src opts.limits = .ok lexed)
    (hparsed : parseSource src (opts.inMode .lenient) = .ok parsed) :
    ∃ later, parsed.diagnostics = lexed.diagnostics ++ later := by
  rw [parseSource_lenient opts hlex, parse_lenient] at hparsed
  obtain ⟨later, hlater⟩ := (readProgram_inStep opts lexed).keeps
  rw [hparsed] at hlater
  exact ⟨later, hlater⟩

/-- The strict reader accepts what the lenient one reads without a report. -/
theorem parseSource_strict_ok_iff :
    parseSource src (opts.inMode .strict) = .ok parsed ↔
      parseSource src (opts.inMode .lenient) = .ok parsed ∧ parsed.diagnostics = #[] := by
  cases hlex : lex src opts.limits with
  | error ds =>
    rw [parseSource_of_lex_error (opts.inMode .strict) hlex,
      parseSource_of_lex_error (opts.inMode .lenient) hlex]
    simp
  | ok lexed =>
    by_cases hclean : lexed.diagnostics = #[]
    · cases parseSource_inStep opts hlex hclean with
      | same a hlenient hstrict hquiet =>
        rw [hlenient, hstrict]
        constructor
        · rintro ⟨⟩
          exact ⟨rfl, hquiet⟩
        · exact And.left
      | stopped d later hlenient hstrict =>
        rw [hstrict]
        refine ⟨nofun, fun ⟨hok, hquiet⟩ => ?_⟩
        rw [hok] at hlenient
        simp [reported, hquiet] at hlenient
    · rw [parseSource_strict opts hlex, if_neg hclean]
      refine ⟨nofun, fun ⟨hok, hquiet⟩ => ?_⟩
      obtain ⟨later, hlater⟩ := lexical_faults_first opts hlex hok
      simp_all

/-- Without faults the strict mode gives the same unit. -/
theorem parseSource_strict_of_clean (h : parseSource src opts = .ok parsed)
    (hclean : parsed.diagnostics = #[]) : parseSource src (opts.inMode .strict) = .ok parsed := by
  cases hmode : opts.mode with
  | strict =>
    have hopts : opts.inMode .strict = opts := by rw [← hmode]; rfl
    rwa [hopts]
  | lenient =>
    have hopts : opts.inMode .lenient = opts := by rw [← hmode]; rfl
    rw [parseSource_strict_ok_iff, hopts]
    exact ⟨h, hclean⟩

theorem generate_lenient (ast : Ast) :
    Target.generate ast (opts.inMode .lenient) = .ok (Target.render ast.tree opts.support) :=
  rfl

theorem generate_strict (ast : Ast) :
    Target.generate ast (opts.inMode .strict) =
      if (Target.render ast.tree opts.support).diagnostics = #[] then
        .ok (Target.render ast.tree opts.support)
      else .error (Target.render ast.tree opts.support).diagnostics := by
  split <;> simp_all [Target.generate, Target.Generated.accept, Options.isStrict, Options.inMode]

theorem compileSource_ok_iff {result : Compilation} :
    compileSource src opts = .ok result ↔
      ∃ parsed g, parseSource src opts = .ok parsed ∧ Target.generate parsed.ast opts = .ok g ∧
        result = ⟨g.c, parsed.diagnostics ++ g.diagnostics⟩ := by
  unfold compileSource
  cases parseSource src opts with
  | error ds => simp [bind, Except.bind]
  | ok parsed =>
    simp only [bind, Except.bind, Parsed.withGenerated]
    split
    · next g hg => simp [hg, eq_comm]
    · next ds hg => simp [hg]

/-- The same for the whole compiler. -/
theorem compileSource_strict_ok_iff {result : Compilation} :
    compileSource src (opts.inMode .strict) = .ok result ↔
      compileSource src (opts.inMode .lenient) = .ok result ∧ result.diagnostics = #[] := by
  rw [compileSource_ok_iff, compileSource_ok_iff]
  constructor
  · rintro ⟨parsed, g, hparsed, hg, rfl⟩
    rw [parseSource_strict_ok_iff] at hparsed
    rw [generate_strict] at hg
    split at hg
    · next hnone =>
      cases hg
      exact ⟨⟨parsed, _, hparsed.1, generate_lenient opts _, rfl⟩, by simp [hparsed.2, hnone]⟩
    · cases hg
  · rintro ⟨⟨parsed, g, hparsed, hg, rfl⟩, hquiet⟩
    obtain ⟨hparse, hgen⟩ := Array.append_eq_empty_iff.mp hquiet
    rw [generate_lenient] at hg
    cases hg
    refine ⟨parsed, _, (parseSource_strict_ok_iff opts).mpr ⟨hparsed, hparse⟩, ?_, rfl⟩
    rw [generate_strict, if_pos hgen]

end

/-- The strict mode does what the lenient one does, up to the first fault. -/
theorem strict_and_lenient_agree (src : String) (opts : Options) :
    -- A source with too many tokens fails alike in both modes.
    (∀ ds, lex src opts.limits = .error ds →
      parseSource src (opts.inMode .lenient) = .error ds ∧
        parseSource src (opts.inMode .strict) = .error ds) ∧
    -- Lexical faults are all that the strict mode reports.
    (∀ lexed, lex src opts.limits = .ok lexed → lexed.diagnostics ≠ #[] →
      parseSource src (opts.inMode .strict) = .error lexed.diagnostics) ∧
    -- Without them it reads the same unit, or ends with the first diagnostic.
    (∀ lexed, lex src opts.limits = .ok lexed → lexed.diagnostics = #[] →
      (reported Parsed.diagnostics (parseSource src (opts.inMode .lenient)) = #[] →
        ∃ parsed, parseSource src (opts.inMode .lenient) = .ok parsed ∧
          parseSource src (opts.inMode .strict) = .ok parsed) ∧
      (∀ d later,
        reported Parsed.diagnostics (parseSource src (opts.inMode .lenient)) =
            (d :: later).toArray →
          parseSource src (opts.inMode .strict) = .error #[d])) ∧
    -- It writes C exactly where the lenient mode does so without a diagnostic.
    (∀ c, (∃ result, compileSource src (opts.inMode .strict) = .ok result ∧ result.c = c) ↔
      compileSource src (opts.inMode .lenient) = .ok ⟨c, #[]⟩) ∧
    -- What the generator leaves out of a clean unit is all that is reported.
    (∀ parsed g, parseSource src (opts.inMode .lenient) = .ok parsed →
      parsed.diagnostics = #[] → Target.generate parsed.ast (opts.inMode .lenient) = .ok g →
      g.diagnostics ≠ #[] →
      compileSource src (opts.inMode .strict) = .error g.diagnostics) := by
  refine ⟨?_, ?_, ?_, ?_, ?_⟩
  · intro ds hlex
    exact ⟨parseSource_of_lex_error (opts.inMode .lenient) hlex,
      parseSource_of_lex_error (opts.inMode .strict) hlex⟩
  · intro lexed hlex hfaulty
    rw [parseSource_strict opts hlex, if_neg hfaulty]
  · intro lexed hlex hclean
    have hstep := parseSource_inStep opts hlex hclean
    constructor
    · intro hquiet
      obtain ⟨parsed, hlenient, hstrict, -⟩ := hstep.of_quiet hquiet
      exact ⟨parsed, hlenient, hstrict⟩
    · intro d later hfirst
      exact hstep.of_first (hfirst.trans Array.empty_append.symm)
  · intro c
    constructor
    · rintro ⟨⟨c', ds⟩, hstrict, rfl⟩
      obtain ⟨hlenient, hquiet⟩ := (compileSource_strict_ok_iff opts).mp hstrict
      cases hquiet
      exact hlenient
    · intro hlenient
      exact ⟨⟨c, #[]⟩, (compileSource_strict_ok_iff opts).mpr ⟨hlenient, rfl⟩, rfl⟩
  · intro parsed g hparsed hclean hg hleft
    have hstrict := (parseSource_strict_ok_iff opts).mpr ⟨hparsed, hclean⟩
    rw [generate_lenient] at hg
    cases hg
    simp [compileSource, hstrict, bind, Except.bind, generate_strict, hleft,
      Parsed.withGenerated, hclean]

theorem exists_of_isOk {α : Type} {result : Except Diagnostics α} (h : result.isOk = true) :
    ∃ a, result = .ok a := by
  cases result with
  | ok a => exact ⟨a, rfl⟩
  | error ds => cases h

theorem exists_error_of_isOk {α : Type} {result : Except Diagnostics α}
    (h : result.isOk = false) : ∃ ds, result = .error ds := by
  cases result with
  | ok a => cases h
  | error ds => exact ⟨ds, rfl⟩

/-- A source for each case: too many tokens, a stray character, a fault, and a
clean unit of which something is left out. -/
theorem strict_and_lenient_agree_cases :
    (∃ ds, lex "a b" { maxTokens := 1 } = .error ds ∧
      parseSource "a b" { mode := .strict, limits := { maxTokens := 1 } } = .error ds) ∧
    (∃ lexed, lex "$" {} = .ok lexed ∧ lexed.diagnostics.size = 1 ∧
      parseSource "$" { mode := .strict } = .error lexed.diagnostics) ∧
    (∃ d, parseSource "fn" { mode := .strict } = .error #[d] ∧
      1 < (reported Parsed.diagnostics (parseSource "fn" {})).size) ∧
    (∃ g : Target.Generated, g.diagnostics.size = 1 ∧
      compileSource "fn f()\x7b0..1;\x7d" { mode := .strict } = .error g.diagnostics) := by
  refine ⟨?_, ?_, ?_, ?_⟩
  · obtain ⟨h, -⟩ := strict_and_lenient_agree "a b" { limits := { maxTokens := 1 } }
    obtain ⟨ds, hlex⟩ := exists_error_of_isOk
      (show (lex "a b" { maxTokens := 1 }).isOk = false by decide +kernel)
    exact ⟨ds, hlex, (h ds hlex).2⟩
  · obtain ⟨-, h, -⟩ := strict_and_lenient_agree "$" {}
    obtain ⟨lexed, hlex⟩ := exists_of_isOk (show (lex "$" {}).isOk by decide +kernel)
    have hone : (reported Lexed.diagnostics (lex "$" {})).size = 1 := by decide +kernel
    rw [hlex] at hone
    refine ⟨lexed, hlex, hone, h lexed hlex fun hnone => ?_⟩
    simp [reported, hnone] at hone
  · obtain ⟨-, -, h, -⟩ := strict_and_lenient_agree "fn" {}
    obtain ⟨lexed, hlex⟩ := exists_of_isOk (show (lex "fn" {}).isOk by decide +kernel)
    have hclean : reported Lexed.diagnostics (lex "fn" {}) = #[] := by decide +kernel
    have hmany : 1 < (reported Parsed.diagnostics (parseSource "fn" {})).size := by decide +kernel
    rw [hlex] at hclean
    cases hds : (reported Parsed.diagnostics (parseSource "fn" {})).toList with
    | nil => simp [← Array.length_toList, hds] at hmany
    | cons d later => exact ⟨d, (h lexed hlex hclean).2 d later (by simp [← hds]; rfl), hmany⟩
  · obtain ⟨-, -, -, -, h⟩ := strict_and_lenient_agree "fn f()\x7b0..1;\x7d" {}
    obtain ⟨parsed, hparsed⟩ :=
      exists_of_isOk (show (parseSource "fn f()\x7b0..1;\x7d" {}).isOk by decide +kernel)
    have hclean : reported Parsed.diagnostics (parseSource "fn f()\x7b0..1;\x7d" {}) = #[] := by
      decide +kernel
    have hleft : (reported Compilation.diagnostics
        (compileSource "fn f()\x7b0..1;\x7d" {})).size = 1 := by
      decide +kernel
    rw [hparsed] at hclean
    have hone : (Target.render parsed.ast.tree .declarations).diagnostics.size = 1 := by
      simpa [compileSource, hparsed, bind, Except.bind, Target.generate, Target.Generated.accept,
        Options.isStrict, Parsed.withGenerated, reported, show parsed.diagnostics = #[] from hclean]
        using hleft
    refine ⟨_, hone, h parsed _ hparsed hclean rfl fun hnone => ?_⟩
    simp [hnone] at hone

end StagedCompiler
