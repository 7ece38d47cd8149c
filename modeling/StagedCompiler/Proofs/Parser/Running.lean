import StagedCompiler.Parser.Program

/-!
How readers run. `Parser.Post` says what holds after a reader: one condition
for the value and state it leaves, one for the diagnostics it gives up with.
The lemmas below give the condition before each step from the condition after
it, so that proofs about readers are read off their text and never look into a
step again.
-/

namespace StagedCompiler

namespace ParseState

/-- The state without its front token; nothing is left out at the end. -/
def next (s : ParseState) : ParseState :=
  match s.rest with
  | [] => s
  | _ :: rest => { s with rest, consumed := s.consumed + 1 }

def skip (s : ParseState) (n : Nat) : ParseState :=
  { s with rest := s.rest.drop n, consumed := s.consumed + n }

def grow (s : ParseState) (n : Node) : ParseState :=
  { s with arena := s.arena.append n }

def report (s : ParseState) (d : Diagnostic) : ParseState :=
  { s with diagnostics := s.diagnostics.push d }

section

variable (s : ParseState)

@[simp] theorem next_arena : s.next.arena = s.arena := by
  unfold next
  split <;> rfl

@[simp] theorem next_names : s.next.names = s.names := by
  unfold next
  split <;> rfl

@[simp] theorem next_diagnostics : s.next.diagnostics = s.diagnostics := by
  unfold next
  split <;> rfl

@[simp] theorem next_rest : s.next.rest = s.rest.tail := by
  unfold next
  split
  · next h => simp [h]
  · next h => simp [h]

@[simp] theorem size_grow (n : Node) : (s.grow n).arena.size = s.arena.size + 1 :=
  Array.size_push n

theorem next_consumed (h : s.rest ≠ []) : s.next.consumed = s.consumed + 1 := by
  unfold next
  split
  · next hnil => exact absurd hnil h
  · rfl

end

end ParseState

/-- A node is granted if its children and the store are within their limits. -/
theorem Arena.refusal?_eq_none (a : Arena) (kind : NodeKind Symbol NodeId) :
    a.refusal? kind = none ↔ kind.children.length ≤ a.maxChildren ∧ a.size < a.maxNodes := by
  unfold refusal? size
  dsimp only
  split
  · next hmany => simp [Nat.not_le.mpr hmany]
  · next hfew =>
    split
    · next hroom => simp [Nat.not_lt.mp hfew, hroom]
    · next hfull => simp [hfull]

/-- A literal has no parts, and it is not the closing token. -/
theorem TokenKind.of_literal? {kind : TokenKind} {node : NodeKind Symbol NodeId}
    (h : kind.literal? = some node) : kind ≠ .eof ∧ node.children = [] := by
  cases TokenKind.isLiteral h <;> exact ⟨nofun, rfl⟩

namespace Parser

variable {α β : Type}

def front (c : ParseSettings) (s : ParseState) : Token :=
  s.rest.headD ⟨.eof, c.eofSpan⟩

theorem front_of_rest {c : ParseSettings} {s : ParseState} {t : Token} {ts : List Token}
    (h : s.rest = t :: ts) : front c s = t := by
  simp [front, h]

/-- Only a front token that is not the closing one has to be there. -/
theorem rest_eq_front {c : ParseSettings} {s : ParseState} (h : (front c s).kind ≠ .eof) :
    s.rest = front c s :: s.next.rest := by
  cases hrest : s.rest with
  | nil => simp [front, hrest] at h
  | cons t rest => simp [front, hrest]

theorem rest_ne_nil {c : ParseSettings} {s : ParseState} (h : (front c s).kind ≠ .eof) :
    s.rest ≠ [] := by
  intro hnil
  simp [front, hnil] at h

theorem run_bind (p : Parser α) (f : α → Parser β) (c : ParseSettings) (s : ParseState) :
    (p >>= f) c s =
      match p c s with
      | .ok (a, s') => f a c s'
      | .error ds => .error ds := by
  change (do let (a, s') ← p c s; f a c s') = _
  cases p c s <;> rfl

/-- What holds after a reader: `Q` of its value and state, or `E` of the
diagnostics it gives up with. -/
def Post (p : Parser α) (c : ParseSettings) (s : ParseState) (Q : α → ParseState → Prop)
    (E : Diagnostics → Prop) : Prop :=
  match p c s with
  | .ok (a, s') => Q a s'
  | .error ds => E ds

section

variable {c : ParseSettings} {s : ParseState} {Q Q' : α → ParseState → Prop}
  {E E' : Diagnostics → Prop} {p : Parser α}

theorem Post.mono (h : p.Post c s Q E) (hQ : ∀ a s', Q a s' → Q' a s')
    (hE : ∀ ds, E ds → E' ds) : p.Post c s Q' E' := by
  unfold Post at h ⊢
  split
  · next a s' hrun =>
    simp only [hrun] at h
    exact hQ a s' h
  · next ds hrun =>
    simp only [hrun] at h
    exact hE ds h

theorem Post.imp (h : p.Post c s Q E) (hQ : ∀ a s', Q a s' → Q' a s') : p.Post c s Q' E :=
  h.mono hQ fun _ he => he

theorem Post.of_ok (h : p.Post c s Q E) {a : α} {s' : ParseState} (hrun : p c s = .ok (a, s')) :
    Q a s' := by
  simpa [Post, hrun] using h

theorem Post.of_error (h : p.Post c s Q E) {ds : Diagnostics} (hrun : p c s = .error ds) :
    E ds := by
  simpa [Post, hrun] using h

/-- Two facts about one run hold together. -/
theorem Post.and (h : p.Post c s Q E) (h' : p.Post c s Q' E) :
    p.Post c s (fun a s' => Q a s' ∧ Q' a s') E := by
  unfold Post at h h' ⊢
  split
  · next hrun =>
    simp only [hrun] at h h'
    exact ⟨h, h'⟩
  · next hrun =>
    simp only [hrun] at h
    exact h

theorem post_true : p.Post c s (fun _ _ => True) fun _ => True := by
  unfold Post
  split <;> trivial

/-- The run itself, for what only shows behind it. -/
theorem post_run : p.Post c s (fun a s' => p c s = .ok (a, s')) fun _ => True := by
  unfold Post
  split
  · next hrun => exact hrun
  · trivial

theorem post_pure (a : α) : (pure a : Parser α).Post c s Q E ↔ Q a s :=
  Iff.rfl

theorem post_bind {f : α → Parser β} {R : β → ParseState → Prop} :
    (p >>= f).Post c s R E ↔ p.Post c s (fun a s' => (f a).Post c s' R E) E := by
  unfold Post
  rw [run_bind]
  cases p c s <;> rfl

theorem post_map {f : α → β} {R : β → ParseState → Prop} :
    (f <$> p).Post c s R E ↔ p.Post c s (fun a s' => R (f a) s') E := by
  have hmap : f <$> p = p >>= fun a => pure (f a) := (bind_pure_comp f p).symm
  rw [hmap, post_bind]
  rfl

theorem post_read {R : ParseSettings → ParseState → Prop} :
    (read : Parser ParseSettings).Post c s R E ↔ R c s :=
  Iff.rfl

end

section

variable {c : ParseSettings} {s : ParseState} {E : Diagnostics → Prop}

theorem post_current {Q : Token → ParseState → Prop} :
    current.Post c s Q E ↔ Q (front c s) s :=
  Iff.rfl

theorem post_peek {n : Nat} {Q : Token → ParseState → Prop} :
    (peek n).Post c s Q E ↔ Q ((s.rest.drop n).headD ⟨.eof, c.eofSpan⟩) s :=
  Iff.rfl

theorem run_advance (c : ParseSettings) (s : ParseState) : advance c s = .ok ((), s.next) := by
  unfold advance ParseState.next
  cases s.rest <;> rfl

theorem post_advance {Q : Unit → ParseState → Prop} :
    advance.Post c s Q E ↔ Q () s.next := by
  rw [Post, run_advance]

theorem post_advanceWhile {skip : TokenKind → Bool} {Q : Unit → ParseState → Prop} :
    (advanceWhile skip).Post c s Q E ↔
      Q () (s.skip (s.rest.takeWhile fun t => skip t.kind).length) :=
  Iff.rfl

theorem post_fault {f : ParseFault} {span : Span} {Q : Unit → ParseState → Prop} :
    (fault f span).Post c s Q E ↔
      (c.mode = .strict → E (s.diagnostics.push ⟨.parse, f.message, some span⟩)) ∧
        (c.mode = .lenient → Q () (s.report ⟨.parse, f.message, some span⟩)) := by
  unfold Post fault
  cases hmode : c.mode with
  | strict => simp
  | lenient => simp [ParseState.report]

theorem post_fault_strict (hmode : c.mode = .strict) {f : ParseFault} {span : Span}
    {Q : Unit → ParseState → Prop} :
    (fault f span).Post c s Q E ↔ E (s.diagnostics.push ⟨.parse, f.message, some span⟩) := by
  simp [post_fault, hmode]

theorem post_intern {text : String} {Q : Symbol → ParseState → Prop} :
    (intern text).Post c s Q E ↔
      Q (s.names.intern text).1 { s with names := (s.names.intern text).2 } :=
  Iff.rfl

theorem post_resolve {sym : Symbol} {Q : String → ParseState → Prop} :
    (resolve sym).Post c s Q E ↔ Q (s.names.resolve sym) s :=
  Iff.rfl

theorem post_consumed {Q : Nat → ParseState → Prop} :
    consumed.Post c s Q E ↔ Q s.consumed s :=
  Iff.rfl

theorem post_rounds {Q : Nat → ParseState → Prop} :
    rounds.Post c s Q E ↔ Q (c.tokenCount + 1) s :=
  Iff.rfl

theorem post_tooDeep {α : Type} {Q : α → ParseState → Prop} :
    tooDeep.Post c s Q E ↔
      E (s.diagnostics.push ((Exceeded.depth c.maxDepth).diagnostic (front c s).span)) :=
  Iff.rfl

/-- A node is refused with the diagnostic of the limit it exceeds. -/
theorem post_build {kind : NodeKind Symbol NodeId} {span : Span}
    {Q : Built → ParseState → Prop} :
    (build kind span).Post c s Q E ↔
      (∀ e, s.arena.refusal? kind = some e → E (s.diagnostics.push (e.diagnostic span))) ∧
        (s.arena.refusal? kind = none →
          Q ⟨s.arena.size, kind, span⟩ (s.grow ⟨kind, span⟩)) := by
  unfold Post build
  cases s.arena.refusal? kind with
  | none => simp [ParseState.grow]
  | some e => simp

theorem post_isAt {k : TokenKind} {Q : Bool → ParseState → Prop} :
    (isAt k).Post c s Q E ↔ Q (decide ((front c s).kind = k)) s :=
  Iff.rfl

/-- The token is taken if it is at the front, and nothing else is. -/
theorem post_eat {k : TokenKind} {Q : Bool → ParseState → Prop} :
    (eat k).Post c s Q E ↔
      if (front c s).kind = k then Q true s.next else Q false s := by
  unfold eat
  rw [post_bind, post_isAt]
  by_cases hk : (front c s).kind = k
  · simp only [hk, decide_true, if_true]
    rw [post_bind, post_advance]
    rfl
  · simp only [hk, decide_false, if_false]
    rfl

theorem post_expect {k : TokenKind} {Q : Span → ParseState → Prop} :
    (expect k).Post c s Q E ↔
      if (front c s).kind = k then Q (front c s).span s.next
      else
        (fault (.expected k.describe (front c s).kind) (front c s).span).Post c s
          (fun _ s' => Q (front c s).span s') E := by
  unfold expect
  rw [post_bind, post_current]
  by_cases hk : (front c s).kind = k
  · simp only [hk, if_true]
    rw [post_bind, post_advance]
    rfl
  · simp only [hk, if_false]
    rw [post_bind]
    rfl

theorem post_expectIdent {Q : Symbol × Span → ParseState → Prop} :
    expectIdent.Post c s Q E ↔
      (∀ sym, (front c s).kind = .ident sym → Q (sym, (front c s).span) s.next) ∧
        ((∀ sym, (front c s).kind ≠ .ident sym) →
          (fault (.expected "identifier" (front c s).kind) (front c s).span).Post c s
            (fun _ s' => (intern missingName).Post c s'
              (fun sym s'' => Q (sym, (front c s).span) s'') E) E) := by
  unfold expectIdent
  rw [post_bind, post_current]
  split
  · next sym hk =>
    rw [post_bind, post_advance, post_pure]
    simp [hk]
  · next found hk =>
    rw [post_bind]
    simp only [post_bind]
    constructor
    · intro h
      exact ⟨fun sym hsym => absurd hsym (hk sym), fun _ => h⟩
    · intro h
      exact h.2 hk

def opensStructBody (ts : List Token) : Bool :=
  match ts.map Token.kind with
  | .punct .lbrace :: .punct .rbrace :: _ => true
  | .punct .lbrace :: .ident _ :: .punct .colon :: _ => true
  | _ => false

theorem post_isAtStructBody {Q : Bool → ParseState → Prop} :
    isAtStructBody.Post c s Q E ↔ Q (opensStructBody s.rest) s := by
  unfold isAtStructBody
  rw [post_bind, post_isAt]
  cases hrest : s.rest with
  | nil => simp [front, hrest, opensStructBody, post_pure]
  | cons t ts =>
    by_cases hopen : t.kind = .punct .lbrace
    · simp only [front, hrest, List.headD_cons, hopen, decide_true, if_true]
      rw [post_bind, post_peek, post_bind, post_peek, hrest]
      rcases ts with _ | ⟨u, _ | ⟨v, vs⟩⟩
      · simp [opensStructBody, hopen, post_pure]
      · simp only [opensStructBody, hopen, List.map_cons, List.map_nil]
        split <;> simp_all [post_pure]
      · simp only [opensStructBody, hopen, List.map_cons]
        split <;> simp_all [post_pure]
    · simp [front, hrest, hopen, opensStructBody, post_pure]

end

end Parser

def ParseSettings.ofStream (lexed : Lexed) (opts : Options) : ParseSettings :=
  ⟨opts.mode, opts.limits.maxDepth, (splitEof lexed.tokens).2, (splitEof lexed.tokens).1.length⟩

def ParseState.ofStream (lexed : Lexed) (opts : Options) : ParseState :=
  { rest := (splitEof lexed.tokens).1, arena := .withLimits opts.limits, names := lexed.names,
    diagnostics := lexed.diagnostics }

def Parsed.ofRun (run : Built × ParseState) : Parsed :=
  ⟨⟨run.2.arena, run.2.names, run.1.id⟩, run.2.diagnostics⟩

theorem readProgram_eq (lexed : Lexed) (opts : Options) :
    readProgram lexed opts =
      Parsed.ofRun <$> Parser.program (.ofStream lexed opts) (.ofStream lexed opts) :=
  rfl

/-- What holds after a program was read is a fact about the unit it gives. -/
theorem Parser.Post.of_readProgram {lexed : Lexed} {opts : Options} {parsed : Parsed}
    {Q : Built → ParseState → Prop} {E : Diagnostics → Prop}
    (h : Parser.program.Post (.ofStream lexed opts) (.ofStream lexed opts) Q E)
    (hread : readProgram lexed opts = .ok parsed) :
    ∃ root s, Q root s ∧ parsed = .ofRun (root, s) := by
  rw [readProgram_eq] at hread
  cases hrun : Parser.program (.ofStream lexed opts) (.ofStream lexed opts) with
  | error ds =>
    rw [hrun] at hread
    cases hread
  | ok r =>
    obtain ⟨root, s⟩ := r
    rw [hrun] at hread
    cases hread
    exact ⟨root, s, h.of_ok hrun, rfl⟩

theorem Parser.Post.of_readProgram_error {lexed : Lexed} {opts : Options} {ds : Diagnostics}
    {Q : Built → ParseState → Prop} {E : Diagnostics → Prop}
    (h : Parser.program.Post (.ofStream lexed opts) (.ofStream lexed opts) Q E)
    (hread : readProgram lexed opts = .error ds) : E ds := by
  rw [readProgram_eq] at hread
  cases hrun : Parser.program (.ofStream lexed opts) (.ofStream lexed opts) with
  | error ds' =>
    rw [hrun] at hread
    cases hread
    exact h.of_error hrun
  | ok r =>
    rw [hrun] at hread
    cases hread

end StagedCompiler
