import StagedCompiler.Proofs.Lexer.SourcePieces
import StagedCompiler.Proofs.Parser.LimitGates

/-!
A run of the lexer as the list of the pieces that it reads. A `Cut` is a piece
in its place; `LexState.Passes` says which cuts lie between two states. Every
run passes the cuts of the source one after the other, up to the end of the
source or to the token that is one too many, so what one cut keeps holds of
every run.
-/

namespace StagedCompiler

theorem Position.offset_advance (here : Position) (bytes : List UInt8) :
    (here.advance bytes).offset = here.offset + bytes.length := by
  unfold advance
  induction bytes generalizing here with
  | nil => rfl
  | cons b bytes ih =>
    have hstep : (here.step b).offset = here.offset + 1 := by
      unfold step
      split <;> rfl
    rw [List.foldl_cons, ih, hstep, List.length_cons]
    omega

/-- A piece moves the reader by its length. -/
theorem Piece.offset_advance {p : Piece} {bytes : List UInt8} (h : Piece.atFront? bytes = some p)
    (here : Position) : (p.advance here bytes).offset = here.offset + p.length := by
  have htake : (here.advance (bytes.take p.length)).offset = here.offset + p.length := by
    rw [Position.offset_advance, List.length_take_of_le (Piece.length_le_of_atFront? h)]
  cases p with
  | strayChar _ | strayByte _ => rfl
  | _ => exact htake

/-- A piece where it was read: the place of the reader, what was left of the
source, and the table of names. -/
structure Cut where
  piece : Piece
  here : Position
  rest : List UInt8
  names : Interner

namespace Cut

def there (c : Cut) : Position :=
  c.piece.advance c.here c.rest

def span (c : Cut) : Span :=
  Span.between c.here c.there

def place (c : Cut) : Span :=
  ⟨c.here.offset, c.there.offset, c.here.line, c.here.col⟩

def lexeme (c : Cut) : List UInt8 :=
  c.rest.take c.piece.length

def after (c : Cut) : List UInt8 :=
  c.rest.drop c.piece.length

def token? (c : Cut) : Option Token :=
  (c.piece.token c.names).1.map fun kind => ⟨kind, c.span⟩

def report? (c : Cut) : Option Diagnostic :=
  c.piece.fault?.map fun fault => ⟨.lex, fault.message, some c.span⟩

variable {c : Cut}

theorem kind_of_token? {t : Token} (h : c.token? = some t) :
    (c.piece.token c.names).1 = some t.kind ∧ t.span = c.span := by
  obtain ⟨kind, hkind, rfl⟩ := Option.map_eq_some_iff.mp h
  exact ⟨hkind, rfl⟩

theorem fault_of_report? {d : Diagnostic} (h : c.report? = some d) :
    ∃ fault, c.piece.fault? = some fault ∧ d = ⟨.lex, fault.message, some c.span⟩ := by
  obtain ⟨fault, hfault, rfl⟩ := Option.map_eq_some_iff.mp h
  exact ⟨fault, hfault, rfl⟩

end Cut

namespace LexState

variable {maxTokens fuel : Nat} {p : Piece} {s s' s'' : LexState} {c : Cut} {cs cs' : List Cut}
  {ds : Diagnostics}

def cut (s : LexState) (p : Piece) : Cut :=
  ⟨p, s.here, s.rest, s.names⟩

def pass (s : LexState) (p : Piece) : LexState where
  here := (s.cut p).there
  rest := (s.cut p).after
  tokens := s.tokens ++ (s.cut p).token?.toArray
  names := (p.token s.names).2
  diagnostics := s.diagnostics ++ (s.cut p).report?.toArray

/-- The cuts lead from one state to the other. -/
inductive Passes : LexState → List Cut → LexState → Prop
  | done (s : LexState) : Passes s [] s
  | cut {s s' : LexState} {p : Piece} {cs : List Cut} : Piece.atFront? s.rest = some p →
      Passes (s.pass p) cs s' → Passes s (s.cut p :: cs) s'

/-! ### What cuts add up to -/

/-- The states before and behind one of the cuts. -/
theorem Passes.split (h : Passes s cs s') (hc : c ∈ cs) :
    ∃ front s1 back, cs = front ++ c :: back ∧ Passes s front s1 ∧
      Piece.atFront? s1.rest = some c.piece ∧ s1.cut c.piece = c ∧
        Passes (s1.pass c.piece) back s' := by
  induction h with
  | done _ => cases hc
  | @cut s _ p cs hp hcs ih =>
    rcases List.mem_cons.mp hc with rfl | hc
    · exact ⟨[], s, cs, rfl, .done s, hp, rfl, hcs⟩
    · obtain ⟨front, s1, back, rfl, hfront, hrest⟩ := ih hc
      exact ⟨s.cut p :: front, s1, back, rfl, .cut hp hfront, hrest⟩

/-- What every piece keeps, all of them keep. -/
theorem Passes.keeps {Inv : LexState → Prop}
    (hstep : ∀ s p, Inv s → Piece.atFront? s.rest = some p → Inv (s.pass p))
    (h : Passes s cs s') (hs : Inv s) : Inv s' := by
  induction h with
  | done _ => exact hs
  | cut hp _ ih => exact ih (hstep _ _ hs hp)

theorem Passes.tokens (h : Passes s cs s') :
    s'.tokens.toList = s.tokens.toList ++ cs.filterMap Cut.token? := by
  induction h with
  | done _ => simp
  | @cut s _ p cs _ _ ih =>
    rw [ih, pass]
    cases htoken : (s.cut p).token? <;> simp [htoken]

theorem Passes.diagnostics (h : Passes s cs s') :
    s'.diagnostics.toList = s.diagnostics.toList ++ cs.filterMap Cut.report? := by
  induction h with
  | done _ => simp
  | @cut s _ p cs _ _ ih =>
    rw [ih, pass]
    cases hreport : (s.cut p).report? <;> simp [hreport]

/-! ### Runs -/

/-- A piece gives a token, or it gives none, in the run as in its cut. -/
theorem token_cases (s : LexState) (p : Piece) :
    (∃ names, p.token s.names = (none, names) ∧ (s.cut p).token? = none) ∨
      ∃ kind names, p.token s.names = (some kind, names) ∧
        (s.cut p).token? = some ⟨kind, (s.cut p).span⟩ := by
  unfold Cut.token?
  dsimp only [cut]
  obtain ⟨kind?, names⟩ := p.token s.names
  cases kind? with
  | none => exact .inl ⟨names, rfl, rfl⟩
  | some kind => exact .inr ⟨kind, names, rfl, rfl⟩

theorem report_eq (s : LexState) (p : Piece) :
    report s.diagnostics p (Span.between s.here (p.advance s.here s.rest)) =
      (s.pass p).diagnostics := by
  unfold report pass Cut.report?
  dsimp only [cut]
  cases p.fault? with
  | none => exact Array.append_empty.symm
  | some fault => exact Array.push_eq_append

/-- A limit that is not met makes no difference. -/
theorem pass_of_read (h : read maxTokens p s = .ok s') : s' = s.pass p := by
  unfold read at h
  dsimp only at h
  rw [report_eq] at h
  rcases token_cases s p with ⟨names, htoken, hnone⟩ | ⟨kind, names, htoken, hsome⟩
  · rw [htoken] at h
    cases h
    rw [pass, hnone, htoken, Option.toArray_none, Array.append_empty]
    rfl
  · rw [htoken] at h
    dsimp only [push] at h
    by_cases hfull : maxTokens ≤ s.tokens.size
    · rw [if_pos hfull] at h
      cases h
    · rw [if_neg hfull] at h
      cases h
      rw [pass, hsome, htoken, Option.toArray_some, ← Array.push_eq_append]
      rfl

/-- The token that is one too many comes with its own fault before it. -/
theorem report_of_read (h : read maxTokens p s = .error ds) :
    ds = (s.pass p).diagnostics.push ((Exceeded.tokens maxTokens).diagnostic (s.cut p).span) := by
  unfold read at h
  dsimp only at h
  rw [report_eq] at h
  rcases token_cases s p with ⟨names, htoken, -⟩ | ⟨kind, names, htoken, -⟩
  · rw [htoken] at h
    cases h
  · rw [htoken] at h
    dsimp only [push] at h
    by_cases hfull : maxTokens ≤ s.tokens.size
    · rw [if_pos hfull] at h
      cases h
      rfl
    · rw [if_neg hfull] at h
      cases h

/-- A piece takes at least one byte. -/
theorem length_pass_lt (hp : Piece.atFront? s.rest = some p) :
    (s.pass p).rest.length < s.rest.length := by
  have hpos := Piece.length_pos_of_atFront? hp
  have hne : s.rest ≠ [] := by
    intro hnil
    rw [hnil] at hp
    cases hp
  have hrest := List.length_pos_iff.mpr hne
  change (s.rest.drop p.length).length < _
  rw [List.length_drop]
  omega

/-- Fuel for each byte is enough to come to the end of the source. -/
theorem passes_of_run (hfuel : s.rest.length ≤ fuel) (h : run maxTokens fuel s = .ok s') :
    ∃ cs s1, Passes s cs s1 ∧ s1.rest = [] ∧
      s' = { s1 with tokens := s1.tokens.push ⟨.eof, Span.between s1.here s1.here⟩ } := by
  revert hfuel
  refine run_induction (P := fun fuel s => s.rest.length ≤ fuel →
    ∃ cs s1, Passes s cs s1 ∧ s1.rest = [] ∧
      s' = { s1 with tokens := s1.tokens.push ⟨.eof, Span.between s1.here s1.here⟩ }) ?_ ?_ h
  · intro fuel s hstop hpush hfuel
    obtain ⟨-, rfl⟩ := push_ok_iff.mp hpush
    refine ⟨[], s, .done s, ?_, rfl⟩
    -- Every piece takes a byte, so without fuel there is nothing left to read.
    rcases hstop with rfl | hnone
    · exact List.length_eq_zero_iff.mp (Nat.le_zero.mp hfuel)
    · exact Piece.atFront?_eq_none.mp hnone
  · intro fuel p s s1 hp hread ih hfuel
    cases pass_of_read hread
    have hshorter := length_pass_lt hp
    obtain ⟨cs, s2, hpasses, hend⟩ := ih (by omega)
    exact ⟨_, s2, .cut hp hpasses, hend⟩

/-- A run that ends early has passed all pieces up to the token that is one too
many, or all there are. -/
theorem passes_of_run_error (hfuel : s.rest.length ≤ fuel) (h : run maxTokens fuel s = .error ds) :
    ∃ cs s1 span, Passes s cs s1 ∧
      ds = s1.diagnostics.push ((Exceeded.tokens maxTokens).diagnostic span) ∧
        (span = Span.between s1.here s1.here ∨ ∃ c ∈ cs, span = c.span) := by
  have hclose (s : LexState) (h : s.push maxTokens ⟨.eof, Span.between s.here s.here⟩ = .error ds) :
      ∃ cs s1 span, Passes s cs s1 ∧
        ds = s1.diagnostics.push ((Exceeded.tokens maxTokens).diagnostic span) ∧
          (span = Span.between s1.here s1.here ∨ ∃ c ∈ cs, span = c.span) := by
    unfold push at h
    split at h
    · cases h
      exact ⟨[], s, _, .done s, rfl, .inl rfl⟩
    · cases h
  induction fuel generalizing s with
  | zero => exact hclose s h
  | succ fuel ih =>
    unfold run at h
    split at h
    · exact hclose s h
    · next p hp =>
      cases hread : read maxTokens p s with
      | error ds' =>
        simp only [hread, bind, Except.bind] at h
        cases h
        exact ⟨[s.cut p], s.pass p, _, .cut hp (.done _), report_of_read hread,
          .inr ⟨_, List.mem_singleton_self _, rfl⟩⟩
      | ok s1 =>
        simp only [hread, bind, Except.bind] at h
        cases pass_of_read hread
        have hshorter := length_pass_lt hp
        obtain ⟨cs, s2, span, hpasses, hds, hspan⟩ := ih (by omega) h
        refine ⟨_, s2, span, .cut hp hpasses, hds, hspan.imp_right ?_⟩
        rintro ⟨c, hc, rfl⟩
        exact ⟨c, List.mem_cons_of_mem _ hc, rfl⟩

/-! ### Places -/

/-- The reader stands inside the source, and all behind it is left. -/
structure Inside (bytes : List UInt8) (s : LexState) : Prop where
  rest : s.rest = bytes.drop s.here.offset
  bound : s.here.offset ≤ bytes.length

theorem Inside.pass {bytes : List UInt8} (h : s.Inside bytes)
    (hp : Piece.atFront? s.rest = some p) : (s.pass p).Inside bytes := by
  have hoffset : (s.pass p).here.offset = s.here.offset + p.length :=
    Piece.offset_advance hp s.here
  have hle := Piece.length_le_of_atFront? hp
  have hbound := h.bound
  constructor
  · rw [hoffset, ← List.drop_drop, ← h.rest]
    rfl
  · rw [h.rest, List.length_drop] at hle
    omega

end LexState

/-- The cut is a piece of the source, in its place. -/
structure Cut.Of (bytes : List UInt8) (c : Cut) : Prop where
  found : Piece.atFront? c.rest = some c.piece
  place : c.rest = bytes.drop c.here.offset
  bound : c.here.offset ≤ bytes.length

/-- The cuts lie end to end between two offsets. -/
def Cut.Tiles : Nat → List Cut → Nat → Prop
  | low, [], high => low = high
  | low, c :: cs, high => c.here.offset = low ∧ Tiles c.there.offset cs high

namespace LexState

theorem Passes.inside {bytes : List UInt8} (h : Passes s cs s') (hs : s.Inside bytes) :
    s'.Inside bytes :=
  h.keeps (fun _ _ hs hp => hs.pass hp) hs

theorem Passes.cuts {bytes : List UInt8} (h : Passes s cs s') (hs : s.Inside bytes) (hc : c ∈ cs) :
    c.Of bytes := by
  obtain ⟨front, s1, back, -, hfront, hp, hcut, -⟩ := h.split hc
  have hs1 := hfront.inside hs
  rw [← hcut]
  exact ⟨hp, hs1.rest, hs1.bound⟩

theorem Passes.tiles (h : Passes s cs s') : Cut.Tiles s.here.offset cs s'.here.offset := by
  induction h with
  | done _ => rfl
  | cut _ _ ih => exact ⟨rfl, ih⟩

end LexState

namespace Cut

variable {bytes : List UInt8} {c : Cut}

theorem Of.stop (h : c.Of bytes) : c.there.offset = c.here.offset + c.piece.length :=
  Piece.offset_advance h.found c.here

theorem Of.start_lt (h : c.Of bytes) : c.here.offset < c.there.offset := by
  have hpos := Piece.length_pos_of_atFront? h.found
  rw [h.stop]
  omega

theorem Of.stop_le (h : c.Of bytes) : c.there.offset ≤ bytes.length := by
  have hle := Piece.length_le_of_atFront? h.found
  have hbound := h.bound
  rw [h.place, List.length_drop] at hle
  rw [h.stop]
  omega

theorem Of.front (h : c.Of bytes) : Piece.Front c.piece c.lexeme c.after := by
  obtain ⟨lexeme, after, hrest, hlength, hfront⟩ := Piece.standsIn_of_atFront? h.found
  have hlexeme : c.lexeme = lexeme := by rw [Cut.lexeme, hrest, hlength, List.take_left]
  have hafter : c.after = after := by rw [Cut.after, hrest, hlength, List.drop_left]
  rw [hlexeme, hafter]
  exact hfront

theorem Of.after_eq (h : c.Of bytes) : c.after = bytes.drop c.there.offset := by
  rw [Cut.after, h.place, h.stop, List.drop_drop]

end Cut

namespace Cut

variable {bytes : List UInt8} {c : Cut} {cs : List Cut} {low high : Nat}

theorem Tiles.low_le (h : Tiles low cs high) (hcs : ∀ c ∈ cs, c.Of bytes) (hc : c ∈ cs) :
    low ≤ c.here.offset := by
  induction cs generalizing low with
  | nil => cases hc
  | cons first cs ih =>
    obtain ⟨rfl, htiles⟩ := h
    rcases List.mem_cons.mp hc with rfl | hc
    · exact Nat.le_refl _
    · have hlt := (hcs first List.mem_cons_self).start_lt
      have hle := ih htiles (fun c' hc' => hcs c' (List.mem_cons_of_mem _ hc')) hc
      omega

/-- Cuts that lie end to end follow one another. -/
theorem Tiles.pairwise (h : Tiles low cs high) (hcs : ∀ c ∈ cs, c.Of bytes) :
    cs.Pairwise fun c c' =>
      c.here.offset < c'.here.offset ∧ c.there.offset ≤ c'.here.offset := by
  induction cs generalizing low with
  | nil => exact .nil
  | cons first cs ih =>
    obtain ⟨rfl, htiles⟩ := h
    have hrest (c : Cut) (hc : c ∈ cs) : c.Of bytes := hcs c (List.mem_cons_of_mem _ hc)
    refine .cons (fun c hc => ?_) (ih htiles hrest)
    have hle : first.there.offset ≤ c.here.offset := htiles.low_le hrest hc
    exact ⟨Nat.lt_of_lt_of_le (hcs first List.mem_cons_self).start_lt hle, hle⟩

end Cut

/-! ### Sources -/

def LexState.before (src : String) : LexState :=
  { rest := Text.bytes src }

theorem LexState.inside_before (src : String) : (before src).Inside (Text.bytes src) :=
  ⟨rfl, Nat.zero_le _⟩

theorem LexState.Passes.of_before {src : String} {cs : List Cut} {s : LexState}
    (h : Passes (.before src) cs s) : ∀ c ∈ cs, c.Of (Text.bytes src) :=
  fun _ hc => h.cuts (inside_before src) hc

/-- In a source below the limit, spans are where their pieces stand. -/
theorem LexState.Passes.span_eq {src : String} {cs : List Cut} {s : LexState}
    (h : Passes (.before src) cs s) (hsize : src.utf8ByteSize < Span.limit) :
    ∀ c ∈ cs, c.span = c.place := by
  intro c hc
  have hof := h.of_before c hc
  have hstop : c.there.offset < Span.limit :=
    Nat.lt_of_le_of_lt (length_bytes src ▸ hof.stop_le) hsize
  rw [Cut.span, Span.between, Nat.mod_eq_of_lt hstop,
    Nat.mod_eq_of_lt (Nat.lt_trans hof.start_lt hstop)]
  rfl

/-- What a source is read as is made of its cuts. -/
theorem lex_passes {src : String} {limits : Limits} {lexed : Lexed}
    (h : lex src limits = .ok lexed) :
    ∃ cs s, LexState.Passes (.before src) cs s ∧ s.here.offset = src.utf8ByteSize ∧
      lexed.tokens.toList = cs.filterMap Cut.token? ++ [⟨.eof, Span.between s.here s.here⟩] ∧
      lexed.diagnostics.toList = cs.filterMap Cut.report? ∧ lexed.names = s.names := by
  obtain ⟨s', hrun, rfl⟩ := lex_ok_iff.mp h
  obtain ⟨cs, s, hpasses, hend, rfl⟩ :=
    LexState.passes_of_run (s := .before src) (Nat.le_refl _) hrun
  have hinside := hpasses.inside (LexState.inside_before src)
  have hplace : s.here.offset = src.utf8ByteSize := by
    have hrest := congrArg List.length hinside.rest
    have hbound := hinside.bound
    rw [hend, List.length_nil, List.length_drop] at hrest
    rw [← length_bytes]
    omega
  refine ⟨cs, s, hpasses, hplace, ?_, ?_, rfl⟩
  · rw [Array.toList_push, hpasses.tokens]
    rfl
  · rw [hpasses.diagnostics]
    rfl

/-- If there are too many tokens, the faults up to the first of those are reported. -/
theorem lex_passes_error {src : String} {limits : Limits} {ds : Diagnostics}
    (h : lex src limits = .error ds) :
    ∃ cs s span, LexState.Passes (.before src) cs s ∧
      ds.toList = cs.filterMap Cut.report? ++
        [(Exceeded.tokens limits.clamped.maxTokens).diagnostic span] ∧
      (span = Span.between s.here s.here ∨ ∃ c ∈ cs, span = c.span) := by
  cases hrun : LexState.run limits.clamped.maxTokens (Text.bytes src).length
      { rest := Text.bytes src } with
  | ok s => simp [lex, hrun, bind, Except.bind, pure, Except.pure] at h
  | error ds' =>
    simp only [lex, hrun, bind, Except.bind, Except.error.injEq] at h
    subst h
    obtain ⟨cs, s, span, hpasses, rfl, hspan⟩ :=
      LexState.passes_of_run_error (s := .before src) (Nat.le_refl _) hrun
    refine ⟨cs, s, span, hpasses, ?_, hspan⟩
    rw [Array.toList_push, hpasses.diagnostics]
    rfl

/-! ### Tokens in their places -/

/-- A token and the bytes that it takes. Its span tells them up to the limit only. -/
structure PlacedToken where
  token : Token
  start : Nat
  stop : Nat
  span_start : token.span.start = start % Span.limit
  span_stop : token.span.stop = stop % Span.limit

def Cut.placed? (c : Cut) : Option PlacedToken :=
  (c.piece.token c.names).1.map fun kind =>
    ⟨⟨kind, c.span⟩, c.here.offset, c.there.offset, rfl, rfl⟩

namespace PlacedToken

structure RowOf (src : String) (lexed : Lexed) (row : List PlacedToken) : Prop where
  tokens : row.map (·.token) = lexed.tokens.toList
  ordered : row.Pairwise fun p q => p.stop ≤ q.start
  inside : ∀ p ∈ row, p.start ≤ p.stop ∧ p.stop ≤ src.utf8ByteSize

/-- In a source below the limit the span of a token is its place. -/
theorem RowOf.span_eq {src : String} {lexed : Lexed} {row : List PlacedToken} {p : PlacedToken}
    (h : RowOf src lexed row) (hsize : src.utf8ByteSize < Span.limit) (hp : p ∈ row) :
    p.token.span.start = p.start ∧ p.token.span.stop = p.stop := by
  obtain ⟨hle, hstop⟩ := h.inside p hp
  have hlt := Nat.lt_of_le_of_lt hstop hsize
  rw [p.span_start, p.span_stop, Nat.mod_eq_of_lt hlt,
    Nat.mod_eq_of_lt (Nat.lt_of_le_of_lt hle hlt)]
  exact ⟨rfl, rfl⟩

end PlacedToken

theorem Cut.of_placed? {c : Cut} {p : PlacedToken} (h : c.placed? = some p) :
    (c.piece.token c.names).1 = some p.token.kind ∧ p.start = c.here.offset ∧
      p.stop = c.there.offset := by
  obtain ⟨kind, hkind, rfl⟩ := Option.map_eq_some_iff.mp h
  exact ⟨hkind, rfl, rfl⟩

/-- The tokens that a source is read as are those of its cuts, and the closing one. -/
theorem placed_of_lex {src : String} {limits : Limits} {lexed : Lexed}
    (h : lex src limits = .ok lexed) :
    ∃ cs s row, LexState.Passes (.before src) cs s ∧ lexed.names = s.names ∧
      PlacedToken.RowOf src lexed row ∧
      ∀ p ∈ row, p.token.kind ≠ .eof → ∃ c ∈ cs, c.placed? = some p := by
  obtain ⟨cs, s, hpasses, hend, htokens, -, hnames⟩ := lex_passes h
  have hcs := hpasses.of_before
  have hinside {p : PlacedToken} (hp : p ∈ cs.filterMap Cut.placed?) :
      p.start ≤ p.stop ∧ p.stop ≤ s.here.offset := by
    obtain ⟨c, hc, hcp⟩ := List.mem_filterMap.mp hp
    obtain ⟨-, hstart, hstop⟩ := Cut.of_placed? hcp
    rw [hstart, hstop, hend, ← length_bytes]
    exact ⟨Nat.le_of_lt (hcs c hc).start_lt, (hcs c hc).stop_le⟩
  refine ⟨cs, s, cs.filterMap Cut.placed? ++
    [⟨⟨.eof, Span.between s.here s.here⟩, s.here.offset, s.here.offset, rfl, rfl⟩],
    hpasses, hnames, ⟨?_, ?_, ?_⟩, ?_⟩
  · have hkind (c : Cut) : c.placed?.map (·.token) = c.token? := Option.map_map ..
    rw [htokens, List.map_append, List.map_filterMap]
    simp only [hkind]
    rfl
  · refine List.pairwise_append.mpr ⟨?_, List.pairwise_singleton _ _, ?_⟩
    · refine List.pairwise_filterMap.mpr ((hpasses.tiles.pairwise hcs).imp ?_)
      intro c c' hlt p hp q hq
      rw [(Cut.of_placed? hp).2.2, (Cut.of_placed? hq).2.1]
      exact hlt.2
    · intro p hp q hq
      cases List.mem_singleton.mp hq
      exact (hinside hp).2
  · intro p hp
    rw [← hend]
    rcases List.mem_append.mp hp with hp | hp
    · exact hinside hp
    · cases List.mem_singleton.mp hp
      exact ⟨Nat.le_refl _, Nat.le_refl _⟩
  · intro p hp heof
    rcases List.mem_append.mp hp with hp | hp
    · exact List.mem_filterMap.mp hp
    · cases List.mem_singleton.mp hp
      exact absurd rfl heof

end StagedCompiler
