import StagedCompiler.Proofs.Cursor.Readers

/-!
Every run of the machine ends, and its registers stay in bounds. Whatever the
tokens are, it answers as the parser does: no lookup fails on the way, the
cursor never leaves the tokens, and the counter of levels neither falls below
zero nor runs past its limit before the machine gives up.
-/

namespace StagedCompiler.Cursor

open StagedCompiler.Parser (front)

/-! ### Items -/

section

variable {v : Stream} {d : Nat} {s : ParseState} {r : State}

theorem follows_param (h : At v d false s r) (hready : Ready v d 0 s) :
    Follows v d param (Parser.param d) (Stays v d false Made) s r := by
  unfold param Parser.param
  apply Follows.current h
  rintro t -
  apply (follows_eat h _).bind
  rintro mutable _ s1 r1 hlater1 ⟨h1, rfl, -⟩
  apply (follows_expectIdent h1).bind
  rintro ⟨name, span⟩ _ s2 r2 hlater2 ⟨h2, rfl⟩
  apply (follows_expect h2 _).bind
  rintro _ _ s3 r3 hlater3 ⟨h3, -⟩
  have hready3 := hready.later ((hlater1.trans hlater2).trans hlater3)
  apply (follows_type h3 (hready3.mono (by omega))).bind
  rintro _ ty s4 r4 - ⟨h4, hty⟩
  exact follows_build_spanOf h4 hty _ _

theorem follows_structField (h : At v d false s r) (hready : Ready v d 0 s) :
    Follows v d structField (Parser.structField d) (Stays v d false Made) s r := by
  unfold structField Parser.structField
  apply Follows.current h
  rintro t -
  apply (follows_expectIdent h).bind
  rintro ⟨name, span⟩ _ s1 r1 hlater1 ⟨h1, rfl⟩
  apply (follows_expect h1 _).bind
  rintro _ _ s2 r2 hlater2 ⟨h2, -⟩
  have hready2 := hready.later (hlater1.trans hlater2)
  apply (follows_type h2 (hready2.mono (by omega))).bind
  rintro _ ty s3 r3 - ⟨h3, hty⟩
  exact follows_build_spanOf h3 hty _ _

def Took (s : ParseState) (P : Prop) (id : NodeId) (b : Built) (s' : ParseState) : Prop :=
  Made id b s' ∧ (P → s.consumed < s'.consumed)

theorem Follows.took {m : Nat → Machine NodeId} {p : Parser Built} {P : Prop} {s' : ParseState}
    (h : Follows v d m p (Stays v d false Made) s' r) (htaken : P → s.consumed < s'.consumed) :
    Follows v d m p (Stays v d false (Took s P)) s' r := by
  apply h.with_later
  rintro id b s'' r'' hlater ⟨hat, hmade⟩
  exact ⟨hat, hmade, fun hp => Nat.lt_of_lt_of_le (htaken hp) hlater.consumed⟩

/-- A token that was expected and is there was taken. -/
theorem taken_of_expect {k : TokenKind} {s' : ParseState} (hk : k ≠ .eof)
    (h : (front v.settings s).kind = k ∧ s' = s.next ∨
      (front v.settings s).kind ≠ k ∧ s'.consumed = s.consumed) :
    (front v.settings s).kind = k → s.consumed < s'.consumed := by
  intro hfront
  obtain ⟨-, rfl⟩ := h.resolve_right fun hne => hne.1 hfront
  have htaken := consumed_next rfl (hfront ▸ hk)
  omega

theorem follows_function (h : At v d false s r) (hready : Ready v d 0 s) (isPublic : Bool)
    (start : Span) :
    Follows v d (function · isPublic start) (Parser.function d isPublic start)
      (Stays v d false (Took s ((front v.settings s).kind = .keyword .fnKw))) s r := by
  unfold function Parser.function
  apply (follows_expect h _).bind
  rintro _ _ s1 r1 hlater1 ⟨h1, -, hfront⟩
  apply Follows.took _ (taken_of_expect (by simp) hfront)
  apply (follows_expectIdent h1).bind
  rintro ⟨name, span⟩ _ s2 r2 hlater2 ⟨h2, rfl⟩
  apply (follows_expect h2 _).bind
  rintro _ _ s3 r3 hlater3 ⟨h3, -⟩
  have hready3 := hready.later ((hlater1.trans hlater2).trans hlater3)
  have hparams : Mirrors v d false param (Parser.param d) s3 :=
    fun s' r' hlater h' => follows_param h' (hready3.later hlater)
  apply (follows_nodes h3 hparams _).bind
  rintro _ params s4 r4 hlater4 ⟨h4, rfl⟩
  apply (follows_expect h4 _).bind
  rintro _ _ s5 r5 hlater5 ⟨h5, -⟩
  have hready5 := hready3.later (hlater4.trans hlater5)
  have hret (r' : State) (h' : At v d false s5.next r') :=
    follows_type h' ((hready5.later (Later.next s5)).mono (Nat.zero_le 1))
  apply (follows_after _ h5 fun r' _ => hret r').bind
  rintro _ ret s6 r6 hlater6 ⟨h6, hrel⟩
  apply ((nests v d).block h6 (.inl (hready5.later hlater6))).bind
  rintro _ body s7 r7 - ⟨h7, hbody⟩
  rw [ids_of_rel hrel]
  exact follows_build_spanOf h7 hbody _ _

theorem follows_struct (h : At v d false s r) (hready : Ready v d 0 s) (start : Span) :
    Follows v d (struct · start) (Parser.struct d start)
      (Stays v d false (Took s ((front v.settings s).kind = .keyword .structKw))) s r := by
  unfold struct Parser.struct
  apply (follows_expect h _).bind
  rintro _ _ s1 r1 hlater1 ⟨h1, -, hfront⟩
  apply Follows.took _ (taken_of_expect (by simp) hfront)
  apply (follows_expectIdent h1).bind
  rintro ⟨name, span⟩ _ s2 r2 hlater2 ⟨h2, rfl⟩
  apply (follows_expect h2 _).bind
  rintro _ _ s3 r3 hlater3 ⟨h3, -⟩
  have hready3 := hready.later ((hlater1.trans hlater2).trans hlater3)
  have hfields : Mirrors v d false structField (Parser.structField d) s3 :=
    fun s' r' hlater h' => follows_structField h' (hready3.later hlater)
  apply (follows_nodes h3 hfields _).bind
  rintro _ fields s4 r4 - ⟨h4, rfl⟩
  exact follows_expect_build h4 _ _ _

def startsDefinition (k : TokenKind) : Prop :=
  k = .keyword .fnKw ∨ k = .keyword .structKw ∨ k = .keyword .pubKw

/-- An item takes a token, so a round of the loop goes on. -/
theorem follows_item (h : At v d false s r) (hready : Ready v d 0 s)
    (hfront : startsDefinition (front v.settings s).kind) :
    Follows v d item (Parser.item d)
      (Stays v d false fun id b s' => Made id b s' ∧ s.consumed < s'.consumed) s r := by
  unfold item Parser.item
  apply Follows.current h
  rintro t -
  apply (follows_eat h _).bind
  rintro isPublic _ s1 r1 hlater1 ⟨h1, rfl, hpub⟩
  have hready1 := hready.later hlater1
  apply Follows.isAt h1
  rintro found hfound
  apply follows_ite
  · intro hstruct
    have hkind : (front v.settings s1).kind = .keyword .structKw :=
      of_decide_eq_true (hfound ▸ hstruct)
    apply (follows_struct h1 hready1 t.span).imp
    rintro id b s2 r2 ⟨h2, hmade, htaken⟩
    exact ⟨h2, hmade, Nat.lt_of_le_of_lt hlater1.consumed (htaken hkind)⟩
  · intro hstruct
    apply (follows_function h1 hready1 isPublic t.span).with_later
    rintro id b s2 r2 hlater2 ⟨h2, hmade, htaken⟩
    refine ⟨h2, hmade, ?_⟩
    have hconsumed := hlater2.consumed
    rcases hpub with ⟨rfl, hkind, rfl⟩ | ⟨rfl, hkind, rfl⟩
    · have htaken1 := consumed_next rfl (by rw [hkind]; simp)
      omega
    · apply htaken
      rcases hfront with hfn | hst | hpub
      · exact hfn
      · simp [hfound, hst] at hstruct
      · exact absurd hpub hkind

/-- Taking a separator takes a token. -/
theorem follows_eatSeparator (h : At v d false s r) :
    Follows v d (fun _ => eatSeparator) Parser.eatSeparator
      (Stays v d false fun a b s' => a = b ∧ (b = true → s.consumed < s'.consumed)) s r := by
  have htake {k : TokenKind} (hk : k ≠ .eof) (hfront : (front v.settings s).kind = k) :
      s.consumed < s.next.consumed := by
    have htaken := consumed_next rfl (hfront ▸ hk)
    omega
  unfold eatSeparator Parser.eatSeparator
  apply (follows_eat h _).bind
  rintro _ found s1 r1 - ⟨h1, rfl, ⟨rfl, hfront, rfl⟩ | ⟨rfl, -, rfl⟩⟩
  · exact follows_pure ⟨h1, rfl, fun _ => htake (by simp) hfront⟩
  · apply (follows_eat h1 _).imp
    rintro a b s2 r2 ⟨h2, rfl, ⟨rfl, hfront, rfl⟩ | ⟨rfl, -, rfl⟩⟩
    · exact ⟨h2, rfl, fun _ => htake (by simp) hfront⟩
    · exact ⟨h2, rfl, by simp⟩

theorem follows_pathLoop (h : At v d false s r) (fuel : Nat) (hfuel : s.rest.length < fuel)
    (path : Array Symbol) (last : Span) :
    Follows v d (pathLoop · path last) (Parser.pathTail fuel path last)
      (Stays v d false fun a b _ => a = b) s r := by
  induction fuel generalizing s r path last with
  | zero => omega
  | succ fuel ih =>
    have hsize := h.size
    apply Follows.succ
    unfold Parser.pathTail
    apply (follows_eatSeparator h).bind
    rintro _ found s1 r1 - ⟨h1, rfl, htaken⟩
    apply follows_ite
    · intro hfound
      have htaken := htaken hfound
      apply (follows_expectIdent h1).bind
      rintro ⟨name, span⟩ _ s2 r2 hlater2 ⟨h2, rfl⟩
      have hconsumed := hlater2.consumed
      have hsize2 := h2.size
      exact ih h2 (by omega) _ _
    · intro _
      exact follows_pure ⟨h1, rfl⟩

theorem follows_importPath (h : At v d false s r) :
    Follows v d importPath Parser.importPath
      (Stays v d false (Took s ((front v.settings s).kind ≠ .eof))) s r := by
  unfold importPath Parser.importPath
  apply Follows.current h
  rintro t -
  apply (follows_advance h).bind
  rintro _ _ _ r1 - ⟨h1, rfl⟩
  apply Follows.took _ fun hk => Nat.lt_of_succ_le (Nat.le_of_eq (consumed_next rfl hk).symm)
  apply (follows_expectIdent h1).bind
  rintro ⟨first, span⟩ _ s2 r2 - ⟨h2, rfl⟩
  have hfuel : s2.rest.length < v.settings.tokenCount + 1 := by
    have hsize := h2.size
    have hcount := h2.count
    omega
  apply Follows.consult rfl
  apply (follows_pathLoop h2 _ hfuel _ _).bind
  rintro ⟨path, last⟩ _ s3 r3 - ⟨h3, rfl⟩
  apply Follows.current h3
  rintro t' -
  apply (follows_eat h3 _).bind
  rintro found _ s4 r4 - ⟨h4, rfl, -⟩
  apply follows_ite
  · intro _
    exact Follows.step rfl rfl (Later.refl _) (follows_build h4 _ _)
  · intro _
    exact Follows.step rfl rfl (Later.refl _) (follows_build h4 _ _)

theorem skip_next {n : Nat} (h : s.rest ≠ []) : s.next.skip n = s.skip (n + 1) := by
  unfold ParseState.skip
  rw [s.next_rest, s.next_consumed h, List.drop_tail, s.next_arena, s.next_names,
    s.next_diagnostics, Nat.add_assoc, Nat.add_comm 1 n]

/-- The machine takes one by one the tokens that the reader drops at once. -/
theorem runs_skipLoop (h : At v d false s r) :
    ∃ r', Ends skipLoop v.setup r (some (), r') ∧
      At v d false (s.skip (s.rest.takeWhile fun t =>
        decide (t.kind ≠ .eof) && !Parser.startsItem t.kind).length) r' := by
  have hstop {s : ParseState} {r : State} (h : At v d false s r) {t : Token}
      (ht : front v.settings s = t)
      (hskip : (decide (t.kind ≠ .eof) && !Parser.startsItem t.kind) = false) :
      Ends skipLoop v.setup r (some (), r) := by
    apply Ends.succ
    apply (Ends.of_eq h.run_current).bind
    simp only [ht, hskip]
    exact .of_eq rfl
  induction hrest : s.rest generalizing s r with
  | nil =>
    have hfront : front v.settings s = ⟨.eof, v.settings.eofSpan⟩ := by
      unfold front
      rw [hrest]
      rfl
    exact ⟨r, hstop h hfront rfl, h⟩
  | cons t ts ih =>
    have hfront : front v.settings s = t := Parser.front_of_rest hrest
    cases hskip : decide (t.kind ≠ .eof) && !Parser.startsItem t.kind with
    | false =>
      refine ⟨r, hstop h hfront hskip, ?_⟩
      simp only [List.takeWhile_cons, hskip]
      exact h
    | true =>
      obtain ⟨r1, hadvance, h1⟩ := h.run_advance
      have hnext : s.next.rest = ts := by rw [s.next_rest, hrest, List.tail_cons]
      obtain ⟨r2, hends, h2⟩ := ih h1 hnext
      refine ⟨r2, ?_, ?_⟩
      · apply Ends.succ
        apply (Ends.of_eq h.run_current).bind
        simp only [hfront, hskip, if_true]
        exact (Ends.of_eq hadvance).bind hends
      · simp only [List.takeWhile_cons, hskip, if_true, List.length_cons]
        rw [← skip_next (by simp [hrest])]
        exact h2

/-- Skipping takes a token at least, so that a round of the loop goes on. -/
theorem follows_skipToItem (h : At v d false s r) (hfront : (front v.settings s).kind ≠ .eof) :
    Follows v d skipToItem Parser.skipToItem
      (Stays v d false fun _ _ s' => s.consumed < s'.consumed) s r := by
  have htaken := consumed_next rfl hfront
  apply (follows_advance h).bind
  rintro _ _ _ r1 - ⟨h1, rfl⟩
  obtain ⟨r2, hends, h2⟩ := runs_skipLoop h1
  refine ⟨(), r2, hends, ⟨Nat.le_add_right _ _, id⟩, h2, ?_⟩
  have hle := Nat.le_add_right s.next.consumed (s.next.rest.takeWhile fun t =>
    decide (t.kind ≠ .eof) && !Parser.startsItem t.kind).length
  change s.consumed < s.next.consumed + _
  omega

/-- Each round takes a token: those of an item, or those up to the next one. -/
theorem follows_itemLoop (h : At v d false s r) (hready : Ready v d 0 s) (fuel : Nat)
    (hfuel : s.rest.length < fuel) (done : Array NodeId) :
    Follows v d (itemLoop · done) (Parser.itemsToEnd d fuel done)
      (Stays v d false fun a b _ => a = b) s r := by
  induction fuel generalizing s r done with
  | zero => omega
  | succ fuel ih =>
    have hsize := h.size
    have hround {s' : ParseState} {r' : State} (h' : At v d false s' r') (hlater : Later s s')
        (htaken : s.consumed < s'.consumed) (done : Array NodeId) :
        Follows v d (itemLoop · done) (Parser.itemsToEnd d fuel done)
          (Stays v d false fun a b _ => a = b) s' r' := by
      have hsize' := h'.size
      exact ih h' (hready.later hlater) (by omega) done
    have hitem (hfront : startsDefinition (front v.settings s).kind) :
        Follows v d (fun n => do itemLoop n (done.push (← item n)))
          (do Parser.itemsToEnd d fuel (done.push (← Parser.item d).id))
          (Stays v d false fun a b _ => a = b) s r := by
      apply (follows_item h hready hfront).bind
      rintro _ b s1 r1 hlater ⟨h1, ⟨rfl, -⟩, htaken⟩
      exact hround h1 hlater htaken _
    have himport (hfront : (front v.settings s).kind ≠ .eof) :
        Follows v d (fun n => do itemLoop n (done.push (← importPath n)))
          (do Parser.itemsToEnd d fuel (done.push (← Parser.importPath).id))
          (Stays v d false fun a b _ => a = b) s r := by
      apply (follows_importPath h).bind
      rintro _ b s1 r1 hlater ⟨h1, ⟨rfl, -⟩, htaken⟩
      exact hround h1 hlater (htaken hfront) _
    have hskip (hfront : (front v.settings s).kind ≠ .eof) (f : ParseFault) (span : Span) :
        Follows v d (fun n => do fault f span; skipToItem n; itemLoop n done)
          (do Parser.fault f span; Parser.skipToItem; Parser.itemsToEnd d fuel done)
          (Stays v d false fun a b _ => a = b) s r := by
      apply (follows_fault h f span).bind
      rintro _ _ s1 r1 hlater1 ⟨h1, hs1⟩
      apply (follows_skipToItem h1 (by rwa [hs1])).bind
      rintro _ _ s2 r2 hlater2 ⟨h2, htaken⟩
      have htaken2 := Nat.lt_of_le_of_lt hlater1.consumed htaken
      exact hround h2 (hlater1.trans hlater2) htaken2 _
    apply Follows.succ
    unfold Parser.itemsToEnd
    apply Follows.current h
    rintro ⟨kind, span⟩ ht
    have hkind : (front v.settings s).kind = kind := by rw [ht]
    cases kind with
    | eof => exact follows_pure ⟨h, rfl⟩
    | keyword word =>
      cases word with
      | fnKw => exact hitem (.inl hkind)
      | structKw => exact hitem (.inr (.inl hkind))
      | pubKw => exact hitem (.inr (.inr hkind))
      | useKw => exact himport (by simp [hkind])
      | importKw => exact himport (by simp [hkind])
      | _ => exact hskip (by simp [hkind]) _ _
    | _ => exact hskip (by simp [hkind]) _ _

/-- The machine reads a whole unit as the reader does. -/
theorem follows_program (h : At v v.settings.maxDepth false s r) :
    Follows v v.settings.maxDepth program Parser.program
      (Stays v v.settings.maxDepth false Made) s r := by
  have hready : Ready v v.settings.maxDepth 0 s := Nat.le_add_right _ _
  have hfuel : s.rest.length < v.settings.tokenCount + 1 := by
    have hsize := h.size
    have hcount := h.count
    omega
  unfold program Parser.program
  apply Follows.current h
  rintro t -
  apply Follows.consult rfl
  apply Follows.consult rfl
  apply (follows_itemLoop h hready _ hfuel #[]).bind
  rintro items _ s1 r1 - ⟨h1, rfl⟩
  apply Follows.current h1
  rintro t' -
  exact follows_build h1 _ _

end

/-! ### Whole runs -/

/-- The closing token stands behind the others, whether or not it was missing. -/
theorem toList_closed (tokens : Array Token) :
    (closed tokens).toList = (splitEof tokens).1 ++ [⟨.eof, (splitEof tokens).2⟩] := by
  unfold closed splitEof
  cases hback : tokens.back? with
  | none => rfl
  | some last =>
    obtain ⟨front, rfl⟩ := Array.back?_eq_some_iff.mp hback
    by_cases heof : last.kind = .eof
    · simp only [heof, if_true, Array.pop_push, Array.toList_push]
      rw [← heof]
    · simp only [heof, if_false, Array.toList_push]

theorem size_closed (tokens : Array Token) :
    (closed tokens).size = (splitEof tokens).1.length + 1 := by
  rw [← Array.length_toList, toList_closed, List.length_append, List.length_singleton]

def Stream.of (lexed : Lexed) (opts : Options) : Stream :=
  ⟨closed lexed.tokens, .ofStream lexed opts⟩

/-- The machine starts where the reader does. -/
theorem at_start (lexed : Lexed) (opts : Options)
    (hnames : ∀ t ∈ lexed.tokens, ∀ sym, t.kind = .ident sym → sym < lexed.names.size) :
    At (.of lexed opts) opts.limits.maxDepth false (.ofStream lexed opts)
      (.start lexed opts) where
  ahead := toList_closed lexed.tokens
  count := size_closed lexed.tokens
  cursor := rfl
  depth := Nat.zero_add _
  header := rfl
  fatal := rfl
  arena := rfl
  names := rfl
  diagnostics := rfl
  known t ht sym hsym := by
    have hlt := hnames t (mem_of_mem_splitEof ht) sym hsym
    exact ⟨_, Array.getElem?_eq_getElem hlt⟩
  sound m hm := by
    have hm : m = ⟨0, 0, none⟩ := by simpa [State.start, State.note, State.now] using hm
    subst hm
    refine ⟨?_, Nat.zero_le _, .inl (Nat.zero_le _)⟩
    rw [Stream.of, size_closed]
    exact Nat.succ_pos _

section

variable {lexed : Lexed} {opts : Options} {bound : Nat} {r : State}

theorem run_of_root {id : NodeId}
    (h : program bound (.of lexed opts) (.start lexed opts) = some (some id, r)) :
    run bound lexed opts =
      some (Parsed.accept ⟨⟨r.arena, r.names, id⟩, r.diagnostics⟩ opts, r.trace) := by
  unfold run
  rw [h]
  rfl

theorem run_of_fatal {d : Diagnostic} (hfatal : r.fatal = some d)
    (h : program bound (.of lexed opts) (.start lexed opts) = some (none, r)) :
    run bound lexed opts = some (.error (r.diagnostics.push d), r.trace) := by
  unfold run
  rw [h]
  change (do return (Except.error (r.diagnostics.push (← r.fatal)), r.trace)) = _
  rw [hfatal]
  rfl

theorem parse_of_root {root : Built} {s : ParseState}
    (h : Parser.program (.ofStream lexed opts) (.ofStream lexed opts) = .ok (root, s)) :
    parse lexed opts = (Parsed.ofRun (root, s)).accept opts := by
  unfold parse
  rw [readProgram_eq, h]
  rfl

theorem parse_of_fatal {ds : Diagnostics}
    (h : Parser.program (.ofStream lexed opts) (.ofStream lexed opts) = .error ds) :
    parse lexed opts = .error ds := by
  unfold parse
  rw [readProgram_eq, h]
  rfl

end

/-- Whatever the tokens are, the machine ends: with every large enough bound it
answers what the parser does, so no token, node or name is looked up in vain and
no level is closed that is not open. On the way the cursor stays inside the
tokens, and the counter of levels passes the limit by one at most, and only
while the machine gives up because of an exceeded limit. -/
theorem run_ends_in_bounds (lexed : Lexed) (opts : Options)
    (hnames : ∀ t ∈ lexed.tokens, ∀ sym, t.kind = .ident sym → sym < lexed.names.size) :
    ∃ trace least,
      (∀ bound, least ≤ bound → run bound lexed opts = some (parse lexed opts, trace)) ∧
        ∀ m ∈ trace, m.Within (closed lexed.tokens).size opts.limits.maxDepth := by
  have hrun := follows_program (at_start lexed opts hnames)
  unfold Follows Parser.Post at hrun
  split at hrun
  · next root s hread =>
    obtain ⟨id, r, ⟨least, hends⟩, -, hat, hid, -⟩ := hrun
    refine ⟨r.trace, least, fun bound hbound => ?_, fun m hm => ?_⟩
    · rw [run_of_root (hends bound hbound), parse_of_root hread, hat.arena, hat.names,
        hat.diagnostics, hid]
      rfl
    · exact hat.sound m (List.mem_cons_of_mem _ hm)
  · next ds hread =>
    obtain ⟨r, ⟨least, hends⟩, ⟨d, hfatal, hds⟩, -, hsound⟩ := hrun
    refine ⟨r.trace, least, fun bound hbound => ?_, fun m hm => ?_⟩
    · rw [run_of_fatal hfatal (hends bound hbound), parse_of_fatal hread, hds]
    · exact hsound m (List.mem_cons_of_mem _ hm)

/-- Tokens that no source has: one that closes them stands in the middle, a
negative number before it and an open bracket behind it. -/
def raggedStream : Lexed where
  tokens := #[⟨.keyword .fnKw, {}⟩, ⟨.ident 0, {}⟩, ⟨.punct .colon, {}⟩, ⟨.punct .lbrace, {}⟩,
    ⟨.int (-1), {}⟩, ⟨.eof, {}⟩, ⟨.punct .lbracket, {}⟩]
  names := (Interner.empty.intern "f").2
  diagnostics := #[]

/-- On one level the number in the block is too deep. -/
theorem run_ends_in_bounds_ragged :
    (∀ t ∈ raggedStream.tokens, ∀ sym, t.kind = .ident sym → sym < raggedStream.names.size) ∧
      (run 20 raggedStream { limits := { maxDepth := 1 } }).map (·.2.map Moment.depth) =
        some [0, 1, 2, 1, 1, 0, 1, 0, 0, 0, 0] ∧
      ∃ trace least,
        (∀ bound, least ≤ bound → run bound raggedStream { limits := { maxDepth := 1 } } =
          some (parse raggedStream { limits := { maxDepth := 1 } }, trace)) ∧
        ∀ m ∈ trace, m.Within (closed raggedStream.tokens).size 1 := by
  have hnames : ∀ t ∈ raggedStream.tokens, ∀ sym, t.kind = .ident sym →
      sym < raggedStream.names.size := by
    intro t ht sym hsym
    simp only [raggedStream, List.mem_toArray, List.mem_cons, List.not_mem_nil, or_false] at ht
    rcases ht with rfl | rfl | rfl | rfl | rfl | rfl | rfl <;> cases hsym
    decide +kernel
  exact ⟨hnames, by decide +kernel, run_ends_in_bounds raggedStream _ hnames⟩

end StagedCompiler.Cursor
