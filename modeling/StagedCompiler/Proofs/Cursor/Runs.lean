import StagedCompiler.Proofs.Cursor.Machine
import StagedCompiler.Proofs.Lexer.SourceTokens

/-!
Runs of the machine beside runs of the reader. `At` says that the registers
stand where the reader does, `Follows` that from there on the machine ends as
the reader does, without a lookup that fails. The lemmas below say so for each
step, so that the proof for a reader is read off its text.
-/

namespace StagedCompiler.Cursor

open StagedCompiler.Parser (front)

/-- What the registers may hold: the cursor is at a token, and the counter of
levels is at most twice the number of tokens and one. It exceeds the limit by
one at most, and only while the machine gives up for want of room. -/
structure Moment.Within (size maxDepth : Nat) (m : Moment) : Prop where
  cursor_lt : m.cursor < size
  depth_le : m.depth ≤ 2 * size + 1
  depth : m.depth ≤ maxDepth ∨
    m.depth = maxDepth + 1 ∧ ∃ d, m.fatal = some d ∧ d.kind = .capacity

/-- The registers hold what they may, now and at all times before. -/
def State.Sound (size maxDepth : Nat) (r : State) : Prop :=
  ∀ m ∈ r.now :: r.trace, m.Within size maxDepth

theorem State.Sound.now {size maxDepth : Nat} {r : State} (h : r.Sound size maxDepth) :
    r.now.Within size maxDepth :=
  h _ List.mem_cons_self

/-- A note of new registers. -/
theorem State.Sound.note {size maxDepth : Nat} {r r' : State} (h : r.Sound size maxDepth)
    (hnow : r'.now.Within size maxDepth) (htrace : r'.trace = r.trace) :
    r'.note.Sound size maxDepth := by
  intro m hm
  rcases List.mem_cons.mp hm with rfl | hm
  · exact hnow
  rcases List.mem_cons.mp hm with rfl | hm
  · exact hnow
  · rw [htrace] at hm
    exact h m (List.mem_cons_of_mem _ hm)

/-- Tokens with a closing one, and what the reader knows of them. -/
structure Stream where
  tokens : Array Token
  settings : ParseSettings

def Stream.setup (v : Stream) : Setup :=
  ⟨v.tokens, v.settings.mode, v.settings.maxDepth⟩

/-- The machine stands where the reader does, with `levels` more allowed. -/
structure At (v : Stream) (levels : Nat) (inHeader : Bool) (s : ParseState) (r : State) : Prop where
  ahead : v.tokens.toList.drop s.consumed = s.rest ++ [⟨.eof, v.settings.eofSpan⟩]
  count : v.tokens.size = v.settings.tokenCount + 1
  cursor : r.cursor = s.consumed
  depth : r.depth + levels = v.settings.maxDepth
  header : r.inHeader = inHeader
  fatal : r.fatal = none
  arena : r.arena = s.arena
  names : r.names = s.names
  diagnostics : r.diagnostics = s.diagnostics
  /-- The names ahead are in the table. -/
  known : ∀ t ∈ s.rest, ∀ sym, t.kind = .ident sym → ∃ text, s.names.resolve? sym = some text
  sound : r.Sound v.tokens.size v.settings.maxDepth

/-- The machine has given up, and at least as many levels are open as when
`levels` more were allowed. -/
structure GaveUp (v : Stream) (levels : Nat) (r : State) (ds : Diagnostics) : Prop where
  fatal : ∃ d, r.fatal = some d ∧ r.diagnostics.push d = ds
  depth : v.settings.maxDepth ≤ r.depth + levels
  sound : r.Sound v.tokens.size v.settings.maxDepth

theorem GaveUp.mono {v : Stream} {levels levels' : Nat} {r : State} {ds : Diagnostics}
    (h : GaveUp v levels r ds) (hle : levels ≤ levels') : GaveUp v levels' r ds :=
  ⟨h.fatal, Nat.le_trans h.depth (Nat.add_le_add_left hle _), h.sound⟩

/-- No token is given back, and nodes stay where they are. -/
structure Later (s s' : ParseState) : Prop where
  consumed : s.consumed ≤ s'.consumed
  nodes {id : NodeId} {n : Node} :
    s.arena.nodes[id]? = some n → s'.arena.nodes[id]? = some n

namespace Later

theorem refl (s : ParseState) : Later s s :=
  ⟨Nat.le_refl _, id⟩

theorem trans {s s' s'' : ParseState} (h : Later s s') (h' : Later s' s'') : Later s s'' :=
  ⟨Nat.le_trans h.consumed h'.consumed, fun hn => h'.nodes (h.nodes hn)⟩

theorem next (s : ParseState) : Later s s.next := by
  refine ⟨?_, fun hn => by rwa [s.next_arena]⟩
  unfold ParseState.next
  split
  · exact Nat.le_refl _
  · exact Nat.le_succ _

theorem grow (s : ParseState) (n : Node) : Later s (s.grow n) where
  consumed := Nat.le_refl _
  nodes {id _} hn := by
    have hid : id < s.arena.nodes.size := (Array.getElem?_eq_some_iff.mp hn).1
    change (s.arena.nodes.push n)[id]? = _
    rw [Array.getElem?_push_lt hid, ← Array.getElem?_eq_getElem hid]
    exact hn

end Later

/-! ### Runs for every large enough bound -/

section

variable {α β : Type} {u : Setup} {r r' : State}

def Ends (m : Nat → Machine α) (u : Setup) (r : State) (out : Option α × State) : Prop :=
  ∃ least, ∀ n, least ≤ n → m n u r = some out

theorem run_bind (m : Machine α) (k : α → Machine β) (u : Setup) (r : State) :
    (m >>= k) u r =
      match m u r with
      | none => none
      | some (none, r') => some (none, r')
      | some (some a, r') => k a u r' := by
  change (m u r >>= fun out => _) = _
  rcases m u r with _ | ⟨_ | a, r'⟩ <;> rfl

theorem Ends.of_eq {m : Machine α} {out : Option α × State} (h : m u r = some out) :
    Ends (fun _ => m) u r out :=
  ⟨0, fun _ _ => h⟩

theorem Ends.bind {m : Nat → Machine α} {k : Nat → α → Machine β} {a : α}
    {out : Option β × State} (hm : Ends m u r (some a, r'))
    (hk : Ends (fun n => k n a) u r' out) : Ends (fun n => m n >>= k n) u r out := by
  obtain ⟨least, hm⟩ := hm
  obtain ⟨least', hk⟩ := hk
  refine ⟨max least least', fun n hn => ?_⟩
  change (m n >>= k n) u r = _
  rw [run_bind, hm n (by omega)]
  exact hk n (by omega)

theorem Ends.bind_none {m : Nat → Machine α} {k : Nat → α → Machine β}
    (hm : Ends m u r (none, r')) : Ends (fun n => m n >>= k n) u r (none, r') := by
  obtain ⟨least, hm⟩ := hm
  refine ⟨least, fun n hn => ?_⟩
  change (m n >>= k n) u r = _
  rw [run_bind, hm n hn]

theorem Ends.of_eventually {m m' : Nat → Machine α} {out : Option α × State}
    (h : Ends m u r out) (least : Nat) (heq : ∀ n, least ≤ n → m' n = m n) : Ends m' u r out := by
  obtain ⟨least', h⟩ := h
  refine ⟨max least least', fun n hn => ?_⟩
  rw [heq n (by omega)]
  exact h n (by omega)

/-- The first round or call takes one from the bound. -/
theorem Ends.succ {m : Nat → Machine α} {out : Option α × State}
    (h : Ends (fun n => m (n + 1)) u r out) : Ends m u r out := by
  obtain ⟨least, h⟩ := h
  refine ⟨least + 1, fun n hn => ?_⟩
  obtain ⟨k, rfl⟩ : ∃ k, n = k + 1 := ⟨n - 1, by omega⟩
  exact h k (by omega)

theorem Ends.ending {m : Nat → Machine α} {result : Option α} {last : State → Option State}
    {r'' : State} (h : Ends m u r (result, r')) (hlast : last r' = some r'') :
    Ends (fun n => ending last (m n)) u r (result, r'') := by
  obtain ⟨least, h⟩ := h
  refine ⟨least, fun n hn => ?_⟩
  simp [Cursor.ending, h n hn, hlast]

end

/-! ### The two runs -/

/-- From here on the machine ends as the reader does: with results that `Q`
relates, or giving up with the same diagnostics. -/
def Follows {α β : Type} (v : Stream) (levels : Nat) (m : Nat → Machine α) (p : Parser β)
    (Q : α → β → ParseState → State → Prop) (s : ParseState) (r : State) : Prop :=
  p.Post v.settings s
    (fun b s' => ∃ a r', Ends m v.setup r (some a, r') ∧ Later s s' ∧ Q a b s' r')
    fun ds => ∃ r', Ends m v.setup r (none, r') ∧ GaveUp v levels r' ds

/-- The machine stands where the reader does again, with as many levels allowed
as before. -/
def Stays {α β : Type} (v : Stream) (levels : Nat) (inHeader : Bool)
    (R : α → β → ParseState → Prop) (a : α) (b : β) (s : ParseState) (r : State) : Prop :=
  At v levels inHeader s r ∧ R a b s

/-- As `Stays`, but levels may have been left open. -/
def Sinks {α β : Type} (v : Stream) (levels : Nat) (inHeader : Bool)
    (R : α → β → ParseState → Prop) (a : α) (b : β) (s : ParseState) (r : State) : Prop :=
  (∃ left ≤ levels, At v left inHeader s r) ∧ R a b s

section

variable {α α' β β' : Type} {v : Stream} {levels : Nat} {inHeader : Bool} {s : ParseState}
  {r : State} {m : Nat → Machine α} {p : Parser β} {Q Q' : α → β → ParseState → State → Prop}
  {R : α → β → ParseState → Prop}

theorem Follows.mono {levels' : Nat} (h : Follows v levels m p Q s r) (hle : levels ≤ levels')
    (hQ : ∀ a b s' r', Q a b s' r' → Q' a b s' r') : Follows v levels' m p Q' s r := by
  apply Parser.Post.mono h
  · rintro b s' ⟨a, r', hends, hlater, hq⟩
    exact ⟨a, r', hends, hlater, hQ a b s' r' hq⟩
  · rintro ds ⟨r', hends, hgave⟩
    exact ⟨r', hends, hgave.mono hle⟩

/-- What holds behind a run may speak of where it started. -/
theorem Follows.with_later (h : Follows v levels m p Q s r)
    (hQ : ∀ a b s' r', Later s s' → Q a b s' r' → Q' a b s' r') : Follows v levels m p Q' s r := by
  apply Parser.Post.imp h
  rintro b s' ⟨a, r', hends, hlater, hq⟩
  exact ⟨a, r', hends, hlater, hQ a b s' r' hlater hq⟩

theorem Follows.imp (h : Follows v levels m p Q s r)
    (hQ : ∀ a b s' r', Q a b s' r' → Q' a b s' r') : Follows v levels m p Q' s r :=
  h.mono (Nat.le_refl _) hQ

theorem Follows.succ (h : Follows v levels (fun n => m (n + 1)) p Q s r) :
    Follows v levels m p Q s r := by
  apply Parser.Post.mono h
  · rintro b s' ⟨a, r', hends, hrest⟩
    exact ⟨a, r', hends.succ, hrest⟩
  · rintro ds ⟨r', hends, hgave⟩
    exact ⟨r', hends.succ, hgave⟩

theorem Follows.of_eventually {m' : Nat → Machine α} (least : Nat)
    (heq : ∀ n, least ≤ n → m' n = m n) (h : Follows v levels m p Q s r) :
    Follows v levels m' p Q s r := by
  apply Parser.Post.mono h
  · rintro b s' ⟨a, r', hends, hrest⟩
    exact ⟨a, r', hends.of_eventually least heq, hrest⟩
  · rintro ds ⟨r', hends, hgave⟩
    exact ⟨r', hends.of_eventually least heq, hgave⟩

/-- What follows is compared where both have come to. -/
theorem Follows.bind {k : Nat → α → Machine α'} {q : β → Parser β'}
    {T : α' → β' → ParseState → State → Prop} (hm : Follows v levels m p Q s r)
    (hk : ∀ a b s' r', Later s s' → Q a b s' r' →
      Follows v levels (fun n => k n a) (q b) T s' r') :
    Follows v levels (fun n => m n >>= k n) (p >>= q) T s r := by
  unfold Follows
  rw [Parser.post_bind]
  apply Parser.Post.mono hm
  · rintro b s1 ⟨a, r1, hends, hlater, hq⟩
    apply Parser.Post.mono (hk a b s1 r1 hlater hq)
    · rintro b' s2 ⟨a', r2, hends', hlater', hq'⟩
      exact ⟨a', r2, hends.bind hends', hlater.trans hlater', hq'⟩
    · rintro ds ⟨r2, hends', hgave⟩
      exact ⟨r2, hends.bind hends', hgave⟩
  · rintro ds ⟨r1, hends, hgave⟩
    exact ⟨r1, hends.bind_none, hgave⟩

/-- Readers whose steps the machine takes as one. -/
theorem Follows.assoc {β'' : Type} {q : β'' → Parser β'} {q' : β' → Parser β}
    {p : Parser β''} (h : Follows v levels m (p >>= q >>= q') Q s r) :
    Follows v levels m (p >>= fun b => q b >>= q') Q s r := by
  rwa [bind_assoc] at h

/-- A result, in a state that `Q` allows. -/
theorem follows_pure {a : α} {b : β} (h : Q a b s r) :
    Follows v levels (fun _ => pure a) (pure b) Q s r :=
  ⟨a, r, .of_eq rfl, Later.refl s, h⟩

/-- One step of both. -/
theorem follows_step {a : α} {b : β} {m : Machine α} {s' : ParseState} {r' : State}
    (hm : m v.setup r = some (some a, r')) (hp : p v.settings s = .ok (b, s'))
    (hlater : Later s s') (hQ : Q a b s' r') : Follows v levels (fun _ => m) p Q s r := by
  unfold Follows Parser.Post
  rw [hp]
  exact ⟨a, r', .of_eq hm, hlater, hQ⟩

/-- A lookup that only the machine needs. -/
theorem Follows.lookup {a : α'} {m : Machine α'} {k : Nat → α' → Machine α}
    (hm : m v.setup r = some (some a, r)) (hk : Follows v levels (fun n => k n a) p Q s r) :
    Follows v levels (fun n => m >>= k n) p Q s r := by
  apply Parser.Post.mono hk
  · rintro b s' ⟨a', r', hends, hrest⟩
    exact ⟨a', r', (Ends.of_eq hm).bind hends, hrest⟩
  · rintro ds ⟨r', hends, hgave⟩
    exact ⟨r', (Ends.of_eq hm).bind hends, hgave⟩

/-- A step that only the reader needs. -/
theorem Follows.consult {b : β'} {p' : Parser β'} {q : β' → Parser β}
    (hp : p' v.settings s = .ok (b, s)) (hq : Follows v levels m (q b) Q s r) :
    Follows v levels m (p' >>= q) Q s r := by
  unfold Follows Parser.Post at hq ⊢
  rw [Parser.run_bind, hp]
  exact hq

theorem Follows.map {f : α → α'} {g : β → β'} {T : α' → β' → ParseState → State → Prop}
    (h : Follows v levels m p Q s r) (hT : ∀ a b s' r', Q a b s' r' → T (f a) (g b) s' r') :
    Follows v levels (fun n => f <$> m n) (g <$> p) T s r := by
  simp only [map_eq_pure_bind]
  apply h.bind
  intro a b s' r' _ hq
  exact follows_pure (hT a b s' r' hq)

/-- A step of both, with what follows. -/
theorem Follows.step {a : α} {b : β} {m : Machine α} {s' : ParseState} {r' : State}
    {k : Nat → α → Machine α'} {q : β → Parser β'} {T : α' → β' → ParseState → State → Prop}
    (hm : m v.setup r = some (some a, r')) (hp : p v.settings s = .ok (b, s'))
    (hlater : Later s s') (hk : Follows v levels (fun n => k n a) (q b) T s' r') :
    Follows v levels (fun n => m >>= k n) (p >>= q) T s r := by
  apply (follows_step (Q := fun a' b' s'' r'' => a' = a ∧ b' = b ∧ s'' = s' ∧ r'' = r') hm hp
    hlater ⟨rfl, rfl, rfl, rfl⟩).bind
  rintro _ _ _ _ - ⟨rfl, rfl, rfl, rfl⟩
  exact hk

theorem follows_ite {c : Prop} [Decidable c] {m' : Nat → Machine α} {p' : Parser β}
    (ht : c → Follows v levels m p Q s r) (hf : ¬c → Follows v levels m' p' Q s r) :
    Follows v levels (fun n => if c then m n else m' n) (if c then p else p') Q s r := by
  by_cases h : c
  · simpa only [h, if_true] using ht h
  · simpa only [h, if_false] using hf h

end

/-! ### Steps -/

section

variable {v : Stream} {levels : Nat} {inHeader : Bool} {s : ParseState} {r : State}

theorem At.size (h : At v levels inHeader s r) :
    v.tokens.size = s.consumed + s.rest.length + 1 := by
  have hlength := congrArg List.length h.ahead
  simp only [List.length_drop, Array.length_toList, List.length_append, List.length_cons,
    List.length_nil] at hlength
  omega

theorem At.getElem? (h : At v levels inHeader s r) (n : Nat) :
    v.tokens[s.consumed + n]? = (s.rest ++ [⟨.eof, v.settings.eofSpan⟩])[n]? := by
  rw [← h.ahead, List.getElem?_drop, Array.getElem?_toList]

theorem At.run_current (h : At v levels inHeader s r) :
    current v.setup r = some (some (front v.settings s), r) := by
  have hfront : (s.rest ++ [⟨.eof, v.settings.eofSpan⟩])[0]? = some (front v.settings s) := by
    unfold front
    cases s.rest <;> rfl
  have hget := h.getElem? 0
  rw [Nat.add_zero, hfront, ← h.cursor] at hget
  simp [current, Stream.setup, hget]

theorem Follows.current {α β : Type} {k : Nat → Token → Machine α} {q : Token → Parser β}
    {Q : α → β → ParseState → State → Prop} (h : At v levels inHeader s r)
    (hk : ∀ t, front v.settings s = t → Follows v levels (fun n => k n t) (q t) Q s r) :
    Follows v levels (fun n => current >>= k n) (Parser.current >>= q) Q s r :=
  Follows.step h.run_current rfl (Later.refl s) (hk _ rfl)

/-- Ahead of the cursor the machine sees the tokens that the reader has left. -/
theorem At.run_peek (h : At v levels inHeader s r) (n : Nat) :
    peek n v.setup r = some (some ((s.rest.drop n).headD ⟨.eof, v.settings.eofSpan⟩), r) := by
  have hplace : min (r.cursor + n) (v.tokens.size - 1) = s.consumed + min n s.rest.length := by
    have hsize := h.size
    have hcursor := h.cursor
    omega
  have hahead : (s.rest ++ [⟨.eof, v.settings.eofSpan⟩])[min n s.rest.length]? =
      some ((s.rest.drop n).headD ⟨.eof, v.settings.eofSpan⟩) := by
    by_cases hn : n < s.rest.length
    · rw [Nat.min_eq_left (by omega), List.getElem?_append_left hn, List.getElem?_eq_getElem hn,
        List.drop_eq_getElem_cons hn]
      rfl
    · rw [Nat.min_eq_right (by omega), List.drop_eq_nil_of_le (by omega)]
      simp
  have hget := h.getElem? (min n s.rest.length)
  rw [hahead] at hget
  simp only [peek, Stream.setup, hplace, hget, Option.map_some]

theorem Follows.peek {α β : Type} {n : Nat} {k : Nat → Token → Machine α} {q : Token → Parser β}
    {Q : α → β → ParseState → State → Prop} (h : At v levels inHeader s r)
    (hk : ∀ t, Follows v levels (fun n => k n t) (q t) Q s r) :
    Follows v levels (fun i => peek n >>= k i) (Parser.peek n >>= q) Q s r :=
  Follows.step (h.run_peek n) rfl (Later.refl s) (hk _)

theorem At.run_isAt (h : At v levels inHeader s r) (k : TokenKind) :
    isAt k v.setup r = some (some (decide ((front v.settings s).kind = k)), r) := by
  unfold isAt
  rw [run_bind, h.run_current]
  rfl

theorem Follows.isAt {α β : Type} {key : TokenKind} {k : Nat → Bool → Machine α}
    {q : Bool → Parser β} {Q : α → β → ParseState → State → Prop} (h : At v levels inHeader s r)
    (hk : ∀ found, found = decide ((front v.settings s).kind = key) →
      Follows v levels (fun n => k n found) (q found) Q s r) :
    Follows v levels (fun n => isAt key >>= k n) (Parser.isAt key >>= q) Q s r :=
  Follows.step (h.run_isAt key) rfl (Later.refl s) (hk _ rfl)

theorem At.run_cursor (h : At v levels inHeader s r) :
    Cursor.cursor v.setup r = some (some s.consumed, r) := by
  unfold Cursor.cursor
  rw [h.cursor]

/-- The registers as they are, for any diagnostic. -/
theorem At.within (h : At v levels inHeader s r) (fatal : Option Diagnostic) :
    (⟨r.cursor, r.depth, fatal⟩ : Moment).Within v.tokens.size v.settings.maxDepth := by
  have hdepth := h.depth
  exact ⟨h.sound.now.cursor_lt, h.sound.now.depth_le, .inl (by dsimp only; omega)⟩

/-- The cursor goes on with the reader, and stays where that stays. -/
theorem At.run_advance (h : At v levels inHeader s r) :
    ∃ r', advance v.setup r = some (some (), r') ∧ At v levels inHeader s.next r' := by
  have hsize := h.size
  have hcursor := h.cursor
  have hahead := h.ahead
  cases hrest : s.rest with
  | nil =>
    rw [hrest, List.length_nil] at hsize
    have hlast : ¬r.cursor + 1 < v.setup.tokens.size := by
      change ¬r.cursor + 1 < v.tokens.size
      omega
    have hnext : s.next = s := by
      unfold ParseState.next
      rw [hrest]
    refine ⟨r, ?_, by rwa [hnext]⟩
    simp only [advance, hlast, if_false]
  | cons t ts =>
    rw [hrest] at hsize hahead
    have hmore : r.cursor + 1 < v.setup.tokens.size := by
      change r.cursor + 1 < v.tokens.size
      rw [List.length_cons] at hsize
      omega
    have hnext : s.next = { s with rest := ts, consumed := s.consumed + 1 } := by
      unfold ParseState.next
      rw [hrest]
    refine ⟨{ r with cursor := r.cursor + 1 }.note, ?_, ?_⟩
    · simp only [advance, hmore, if_true, move]
    · rw [hnext]
      refine { h with
        ahead := ?_, cursor := by simp [State.note, hcursor], known := ?_, sound := ?_ }
      · rw [← List.drop_drop, hahead]
        rfl
      · intro t' ht'
        exact h.known t' (by simp [hrest, ht'])
      · have hnow := h.within r.fatal
        exact h.sound.note ⟨hmore, hnow.depth_le, hnow.depth⟩ rfl

theorem follows_advance (h : At v levels inHeader s r) :
    Follows v levels (fun _ => advance) Parser.advance
      (Stays v levels inHeader fun _ _ s' => s' = s.next) s r := by
  obtain ⟨r', hrun, hat⟩ := h.run_advance
  exact follows_step hrun (Parser.run_advance _ _) (Later.next s) ⟨hat, rfl⟩

/-- Both take the token, or both leave it. -/
theorem At.run_eat (h : At v levels inHeader s r) (k : TokenKind) :
    ∃ r', eat k v.setup r = some (some (decide ((front v.settings s).kind = k)), r') ∧
      At v levels inHeader (if (front v.settings s).kind = k then s.next else s) r' := by
  unfold eat
  rw [run_bind, h.run_isAt]
  by_cases hk : (front v.settings s).kind = k
  · obtain ⟨r', hrun, hat⟩ := h.run_advance
    refine ⟨r', ?_, by rwa [if_pos hk]⟩
    simp only [hk, decide_true, if_true]
    rw [run_bind, hrun]
    rfl
  · refine ⟨r, ?_, by rwa [if_neg hk]⟩
    simp only [hk, decide_false]
    rfl

/-- Taking a token of a kind, if it is at the front. -/
theorem follows_eat (h : At v levels inHeader s r) (k : TokenKind) :
    Follows v levels (fun _ => eat k) (Parser.eat k)
      (Stays v levels inHeader fun a b s' => a = b ∧
        (b = true ∧ (front v.settings s).kind = k ∧ s' = s.next ∨
          b = false ∧ (front v.settings s).kind ≠ k ∧ s' = s)) s r := by
  obtain ⟨r', hrun, hat⟩ := h.run_eat k
  unfold Follows
  rw [Parser.post_eat]
  split
  · next hk =>
    rw [if_pos hk] at hat
    simp only [hk, decide_true] at hrun
    exact ⟨true, r', .of_eq hrun, Later.next s, hat, rfl, .inl ⟨rfl, hk, rfl⟩⟩
  · next hk =>
    rw [if_neg hk] at hat
    simp only [hk, decide_false] at hrun
    exact ⟨false, r', .of_eq hrun, Later.refl s, hat, rfl, .inr ⟨rfl, hk, rfl⟩⟩

/-- Both report the fault and go on, or both give up. -/
theorem follows_fault (h : At v levels inHeader s r) (f : ParseFault) (span : Span) :
    Follows v levels (fun _ => fault f span) (Parser.fault f span)
      (Stays v levels inHeader fun _ _ s' => s' = s.report ⟨.parse, f.message, some span⟩) s r := by
  unfold Follows
  rw [Parser.post_fault]
  have hmode : v.setup.mode = v.settings.mode := rfl
  constructor
  · intro hstrict
    refine ⟨{ r with fatal := some ⟨.parse, f.message, some span⟩ }.note, .of_eq ?_, ?_⟩
    · simp only [fault, hmode, hstrict, giveUp]
    · refine ⟨⟨_, rfl, ?_⟩, Nat.le_of_eq h.depth.symm, h.sound.note (h.within _) rfl⟩
      simp [State.note, h.diagnostics]
  · intro hlenient
    refine ⟨(), { r with diagnostics := r.diagnostics.push ⟨.parse, f.message, some span⟩ },
      .of_eq ?_, ⟨Nat.le_refl _, id⟩, ?_, rfl⟩
    · simp only [fault, hmode, hlenient]
    · exact { h with diagnostics := by simp [ParseState.report, h.diagnostics] }

/-- Taking a token of a kind; another one is reported and stays. -/
theorem follows_expect (h : At v levels inHeader s r) (k : TokenKind) :
    Follows v levels (fun _ => expect k) (Parser.expect k)
      (Stays v levels inHeader fun a b s' => a = b ∧
        ((front v.settings s).kind = k ∧ s' = s.next ∨
          (front v.settings s).kind ≠ k ∧ s'.consumed = s.consumed)) s r := by
  unfold expect Parser.expect
  apply Follows.current h
  rintro _ rfl
  apply follows_ite
  · intro hk
    apply (follows_advance h).bind
    rintro _ _ s1 r1 - ⟨h1, rfl⟩
    exact follows_pure ⟨h1, rfl, .inl ⟨hk, rfl⟩⟩
  · intro hk
    apply (follows_fault h _ _).bind
    rintro _ _ s1 r1 - ⟨h1, rfl⟩
    exact follows_pure ⟨h1, rfl, .inr ⟨hk, rfl⟩⟩

theorem follows_intern (h : At v levels inHeader s r) (text : String) :
    Follows v levels (fun _ => intern text) (Parser.intern text)
      (Stays v levels inHeader fun a b s' => a = b ∧ s'.consumed = s.consumed) s r := by
  have hm : intern text v.setup r =
      some (some (s.names.intern text).1, { r with names := (s.names.intern text).2 }) := by
    simp only [intern, h.names]
  have hp : Parser.intern text v.settings s =
      .ok ((s.names.intern text).1, { s with names := (s.names.intern text).2 }) := rfl
  apply follows_step hm hp ⟨Nat.le_refl _, id⟩
  refine ⟨{ h with names := rfl, known := ?_ }, rfl, rfl⟩
  intro t ht sym hsym
  obtain ⟨old, hold⟩ := h.known t ht sym hsym
  exact ⟨old, Interner.resolve?_intern_old hold⟩

/-- The name at the front is in the table. -/
theorem At.run_resolve (h : At v levels inHeader s r) {sym : Symbol} {text : String}
    (hsym : s.names.resolve? sym = some text) : resolve sym v.setup r = some (some text, r) := by
  simp [resolve, h.names, hsym]

theorem follows_expectIdent (h : At v levels inHeader s r) :
    Follows v levels (fun _ => expectIdent) Parser.expectIdent
      (Stays v levels inHeader fun a b _ => a = b) s r := by
  unfold expectIdent Parser.expectIdent
  apply Follows.current h
  rintro ⟨kind, span⟩ -
  cases kind with
  | ident sym =>
    apply (follows_advance h).bind
    rintro _ _ s1 r1 - ⟨h1, -⟩
    exact follows_pure ⟨h1, rfl⟩
  | _ =>
    apply (follows_fault h _ _).bind
    rintro _ _ s1 r1 - ⟨h1, -⟩
    apply (follows_intern h1 _).bind
    rintro sym _ s2 r2 - ⟨h2, rfl, -⟩
    exact follows_pure ⟨h2, rfl⟩

/-- The machine has the number of a node that the reader holds. -/
def Made (id : NodeId) (b : Built) (s : ParseState) : Prop :=
  id = b.id ∧ s.arena.nodes[b.id]? = some b.node

theorem Made.later {id : NodeId} {b : Built} {s s' : ParseState} (h : Made id b s)
    (hlater : Later s s') : Made id b s' :=
  ⟨h.1, hlater.nodes h.2⟩

/-- Both build the node, or both are refused. -/
theorem follows_build (h : At v levels inHeader s r) (kind : NodeKind Symbol NodeId)
    (span : Span) :
    Follows v levels (fun _ => build kind span) (Parser.build kind span)
      (Stays v levels inHeader Made) s r := by
  unfold Follows
  rw [Parser.post_build]
  constructor
  · intro e he
    refine ⟨{ r with fatal := some (e.diagnostic span) }.note, .of_eq ?_, ?_⟩
    · simp only [build, Arena.request, h.arena, he, giveUp]
    · refine ⟨⟨_, rfl, ?_⟩, Nat.le_of_eq h.depth.symm, h.sound.note (h.within _) rfl⟩
      simp [State.note, h.diagnostics]
  · intro hroom
    refine ⟨s.arena.size, { r with arena := s.arena.append ⟨kind, span⟩ }, .of_eq ?_,
      Later.grow s _, { h with arena := rfl }, rfl, ?_⟩
    · simp only [build, Arena.request, h.arena, hroom, Arena.size]
    · exact Array.getElem?_push_size

theorem At.run_node (h : At v levels inHeader s r) {id : NodeId} {b : Built} (hb : Made id b s) :
    node id v.setup r = some (some b.node, r) := by
  simp [node, h.arena, hb.1, hb.2]

theorem At.run_spanOf (h : At v levels inHeader s r) {id : NodeId} {b : Built}
    (hb : Made id b s) : spanOf id v.setup r = some (some b.span, r) := by
  unfold spanOf
  rw [run_bind, h.run_node hb]
  rfl

/-- A node that ends with a closing token. -/
theorem follows_expect_build (h : At v levels inHeader s r) (k : TokenKind)
    (kind : NodeKind Symbol NodeId) (place : Span → Span) :
    Follows v levels (fun _ => expect k >>= fun close => build kind (place close))
      (Parser.expect k >>= fun close => Parser.build kind (place close))
      (Stays v levels inHeader Made) s r := by
  apply (follows_expect h k).bind
  rintro close _ s' r' - ⟨h', rfl, -⟩
  exact follows_build h' _ _

/-- A node whose place depends on that of one of its children. -/
theorem follows_build_spanOf (h : At v levels inHeader s r) {id : NodeId} {b : Built}
    (hb : Made id b s) (kind : NodeId → NodeKind Symbol NodeId) (place : Span → Span) :
    Follows v levels (fun _ => spanOf id >>= fun span => build (kind id) (place span))
      (Parser.build (kind b.id) (place b.span)) (Stays v levels inHeader Made) s r := by
  apply Follows.lookup (h.run_spanOf hb)
  rw [hb.1]
  exact follows_build h _ _

end

/-! ### Levels and headers -/

/-- At most two levels are open for each token that was taken, and `extra`
more. -/
def Ready (v : Stream) (levels extra : Nat) (s : ParseState) : Prop :=
  v.settings.maxDepth ≤ levels + 2 * s.consumed + extra

section

variable {α β : Type} {v : Stream} {levels : Nat} {inHeader : Bool} {s : ParseState} {r : State}
  {m : Nat → Machine α} {p : Parser β} {R : α → β → ParseState → Prop}

/-- What the registers may hold once a level is opened. -/
theorem At.within_enter (h : At v levels inHeader s r) (hready : Ready v levels 2 s)
    (fatal : Option Diagnostic) (hlevels : 0 < levels ∨ ∃ d, fatal = some d ∧ d.kind = .capacity) :
    (⟨r.cursor, r.depth + 1, fatal⟩ : Moment).Within v.tokens.size v.settings.maxDepth := by
  have hsize := h.size
  have hdepth := h.depth
  unfold Ready at hready
  refine ⟨h.sound.now.cursor_lt, ?_, ?_⟩
  · dsimp only
    omega
  · dsimp only
    by_cases hzero : levels = 0
    · exact .inr ⟨by omega, hlevels.resolve_left (by omega)⟩
    · exact .inl (by omega)

/-- A level that is left is entered, and one less remains. -/
theorem At.run_enter (h : At v (levels + 1) inHeader s r) (hready : Ready v (levels + 1) 2 s) :
    ∃ r', enter v.setup r = some (some (), r') ∧ At v levels inHeader s r' := by
  have hdepth := h.depth
  refine ⟨{ r with depth := r.depth + 1 }.note, ?_, ?_⟩
  · have hroom : ¬v.setup.maxDepth < r.depth + 1 := by
      change ¬v.settings.maxDepth < r.depth + 1
      omega
    simp only [enter, hroom, if_false]
  · have hnow := h.within_enter hready r.fatal (.inl (Nat.succ_pos levels))
    refine { h with depth := ?_, sound := h.sound.note hnow rfl }
    simp only [State.note]
    omega

/-- Without a level left the machine gives up as the reader does. -/
theorem follows_enter_zero (h : At v 0 inHeader s r) (hready : Ready v 0 2 s)
    {Q : α → β → ParseState → State → Prop} {k : Nat → Unit → Machine α} :
    Follows v 0 (fun n => enter >>= k n) Parser.tooDeep Q s r := by
  have hdepth := h.depth
  obtain ⟨d, hd⟩ : ∃ d, d = (Exceeded.depth v.settings.maxDepth).diagnostic
    (front v.settings s).span := ⟨_, rfl⟩
  unfold Follows
  rw [Parser.post_tooDeep, ← hd]
  refine ⟨{ r with depth := r.depth + 1, fatal := some d }.note, .bind_none (.of_eq ?_), ?_⟩
  · have hfull : v.setup.maxDepth < r.depth + 1 := by
      change v.settings.maxDepth < r.depth + 1
      omega
    have htoken : v.setup.tokens[r.cursor]? = some (front v.settings s) := by
      simpa [current] using h.run_current
    simp only [enter, hfull, if_true, htoken, Option.bind_some, giveUp, hd]
    rfl
  · have hnow := h.within_enter hready (some d) (.inr ⟨d, rfl, by rw [hd]; rfl⟩)
    refine ⟨⟨d, rfl, ?_⟩, ?_, h.sound.note hnow rfl⟩
    · simp only [State.note, h.diagnostics]
    · simp only [State.note]
      omega

/-- Opening a level, with what follows on it. -/
theorem Follows.enter {Q : α → β → ParseState → State → Prop} {k : Nat → Unit → Machine α}
    (h : At v (levels + 1) inHeader s r) (hready : Ready v (levels + 1) 2 s)
    (hk : ∀ r', At v levels inHeader s r' → Follows v (levels + 1) (fun n => k n ()) p Q s r') :
    Follows v (levels + 1) (fun n => enter >>= k n) p Q s r := by
  obtain ⟨r', hrun, hat⟩ := h.run_enter hready
  have hfirst := Ends.of_eq hrun
  apply Parser.Post.mono (hk r' hat)
  · rintro b s' ⟨a, r'', hends, hrest⟩
    exact ⟨a, r'', hfirst.bind hends, hrest⟩
  · rintro ds ⟨r'', hends, hgave⟩
    exact ⟨r'', hfirst.bind hends, hgave⟩

/-- The registers once levels are closed. -/
theorem State.Sound.restore {size maxDepth depth : Nat} {r : State} (h : r.Sound size maxDepth)
    (hsize : depth ≤ 2 * size + 1) (hlimit : depth ≤ maxDepth) :
    State.Sound size maxDepth { r with depth }.note :=
  h.note ⟨h.now.cursor_lt, hsize, .inl hlimit⟩ rfl

/-- Closing a level behind a run that went on. -/
theorem At.run_leave (h : At v levels inHeader s r) (hopen : levels < v.settings.maxDepth) :
    ∃ r', leave r = some r' ∧ At v (levels + 1) inHeader s r' := by
  have hdepth := h.depth
  obtain ⟨depth, hd⟩ : ∃ depth, r.depth = depth + 1 := ⟨r.depth - 1, by omega⟩
  refine ⟨{ r with depth }.note, by simp only [leave, hd], ?_⟩
  have hsize : r.depth ≤ _ := h.sound.now.depth_le
  refine { h with depth := ?_, sound := h.sound.restore (by omega) (by omega) }
  simp only [State.note]
  omega

/-- Closing a level behind a run that gave up. -/
theorem GaveUp.run_leave {ds : Diagnostics} (h : GaveUp v levels r ds)
    (hopen : levels < v.settings.maxDepth) :
    ∃ r', leave r = some r' ∧ GaveUp v (levels + 1) r' ds := by
  have hdepth := h.depth
  obtain ⟨depth, hd⟩ : ∃ depth, r.depth = depth + 1 := ⟨r.depth - 1, by omega⟩
  refine ⟨{ r with depth }.note, by simp only [leave, hd], h.fatal, ?_, ?_⟩
  · change _ ≤ depth + _
    omega
  have hsize : r.depth ≤ _ := h.sound.now.depth_le
  have hlimit : r.depth ≤ v.settings.maxDepth + 1 := by
    rcases h.sound.now.depth with hle | ⟨heq, -⟩
    · exact Nat.le_succ_of_le hle
    · exact Nat.le_of_eq heq
  exact h.sound.restore (by omega) (by omega)

/-- A run on a level of its own. -/
theorem follows_level (h : At v (levels + 1) inHeader s r) (hready : Ready v (levels + 1) 2 s)
    (hbody : ∀ r', At v levels inHeader s r' →
      Follows v levels m p (Stays v levels inHeader R) s r') :
    Follows v (levels + 1) (fun n => level (m n)) p (Stays v (levels + 1) inHeader R) s r := by
  have hopen : levels < v.settings.maxDepth := by
    have hdepth := h.depth
    omega
  apply Follows.enter h hready
  intro r1 h1
  apply Parser.Post.mono (hbody r1 h1)
  · rintro b s' ⟨a, r2, hends, hlater, h2, hR⟩
    obtain ⟨r3, hleave, h3⟩ := h2.run_leave hopen
    exact ⟨a, r3, hends.ending hleave, hlater, h3, hR⟩
  · rintro ds ⟨r2, hends, h2⟩
    obtain ⟨r3, hleave, h3⟩ := h2.run_leave hopen
    exact ⟨r3, hends.ending hleave, h3⟩

/-- A run behind which open levels are closed. -/
theorem follows_restoring (h : At v levels inHeader s r)
    (hbody : Follows v levels m p (Sinks v levels inHeader R) s r) :
    Follows v levels (fun n => restoring (m n)) p (Stays v levels inHeader R) s r := by
  have hdepth := h.depth
  have hsize := h.sound.now.depth_le
  have hlimit : r.depth ≤ v.settings.maxDepth := by omega
  apply Parser.Post.mono hbody
  · rintro b s' ⟨a, r1, hends, hlater, ⟨left, -, h1⟩, hR⟩
    refine ⟨a, _, hends.ending rfl, hlater, ?_, hR⟩
    exact { h1 with depth := hdepth, sound := h1.sound.restore hsize hlimit }
  · rintro ds ⟨r1, hends, h1⟩
    refine ⟨_, hends.ending rfl, h1.fatal, ?_, h1.sound.restore hsize hlimit⟩
    exact Nat.le_of_eq hdepth.symm

/-- A run inside or outside of a header. -/
theorem follows_withHeader (inside : Bool) (h : At v levels inHeader s r)
    (hbody : ∀ r', At v levels inside s r' → Follows v levels m p (Stays v levels inside R) s r') :
    Follows v levels (fun n => withHeader inside (m n)) p (Stays v levels inHeader R) s r := by
  have hinside : At v levels inside s { r with inHeader := inside } := { h with header := rfl }
  apply Parser.Post.mono (hbody _ hinside)
  · rintro b s' ⟨a, r1, hends, hlater, h1, hR⟩
    refine ⟨a, _, hends.ending rfl, hlater, ?_, hR⟩
    exact { h1 with header := h.header }
  · rintro ds ⟨r1, hends, h1⟩
    exact ⟨_, hends.ending rfl, h1.fatal, h1.depth, h1.sound⟩

end

end StagedCompiler.Cursor
