import Mathlib.Algebra.GroupWithZero.Nat
import Mathlib.Data.List.Forall2
import StagedCompiler.Proofs.Lexer.SourceTokens
import StagedCompiler.Proofs.Parser.CarryingReaders
import StagedCompiler.Proofs.Parser.ModeAgreement

/-!
Recovery between items. What stands between items and starts none is passed
over with one report, and the items around it are read as if each stood alone:
their nodes are the same up to where they stand in the arena.
-/

namespace StagedCompiler

def IsGap (tokens : List Token) : Prop :=
  ∀ t ∈ tokens, t.kind ≠ .eof ∧ Parser.startsItem t.kind = false

instance (tokens : List Token) : Decidable (IsGap tokens) :=
  inferInstanceAs (Decidable (∀ t ∈ tokens, t.kind ≠ .eof ∧ Parser.startsItem t.kind = false))

/-- What is reported where tokens stand that are no part of an item. -/
def gapNote : List Token → Option Diagnostic
  | [] => none
  | t :: _ => some ⟨.parse, (ParseFault.notAnItem t.kind).message, some t.span⟩

/-- An import that does not end with a semicolon, so that its path could go on. -/
def OpenImport (tokens : List Token) : Prop :=
  (∃ t ∈ tokens.head?, t.kind = .keyword .useKw ∨ t.kind = .keyword .importKw) ∧
    ∀ t ∈ tokens.getLast?, t.kind ≠ .punct .semicolon

instance (tokens : List Token) : Decidable (OpenImport tokens) :=
  inferInstanceAs (Decidable ((∃ t ∈ tokens.head?, _) ∧ ∀ t ∈ tokens.getLast?, _))

theorem openImport_or_semicolon {tokens : List Token} {t : Token} (hhead : tokens.head? = some t)
    (ht : t.kind = .keyword .useKw ∨ t.kind = .keyword .importKw) :
    OpenImport tokens ∨ ∃ u, tokens.getLast? = some u ∧ u.kind = .punct .semicolon := by
  by_cases hclosed : ∃ u, tokens.getLast? = some u ∧ u.kind = .punct .semicolon
  · exact .inr hclosed
  · exact .inl ⟨⟨t, hhead, ht⟩, fun u hu hsemicolon => hclosed ⟨u, hu, hsemicolon⟩⟩

def Lexed.ofTokens (tokens : List Token) (close : Span) (names : Interner) (ds : Diagnostics) :
    Lexed :=
  ⟨tokens.toArray.push ⟨.eof, close⟩, names, ds⟩

section

variable (tokens : List Token) (close : Span) (names : Interner) (ds : Diagnostics) (opts : Options)

theorem ParseSettings.ofStream_ofTokens :
    ParseSettings.ofStream (.ofTokens tokens close names ds) opts =
      ⟨opts.mode, opts.limits.maxDepth, close, tokens.length⟩ := by
  simp only [ParseSettings.ofStream, Lexed.ofTokens, splitEof_push]

theorem ParseState.ofStream_ofTokens :
    ParseState.ofStream (.ofTokens tokens close names ds) opts =
      { rest := tokens, arena := .withLimits opts.limits, names := names, diagnostics := ds } := by
  simp only [ParseState.ofStream, Lexed.ofTokens, splitEof_push]

end

namespace Parser

/-! ### Rounds of the reader of programs -/

def itemReader? (depth : Nat) : TokenKind → Option (Parser Built)
  | .keyword .fnKw | .keyword .structKw | .keyword .pubKw => some (item depth)
  | .keyword .useKw | .keyword .importKw => some importPath
  | _ => none

theorem itemReader?_eq_none {depth : Nat} {k : TokenKind} :
    itemReader? depth k = none ↔ startsItem k = false := by
  unfold itemReader? startsItem
  split <;> simp_all

theorem run_bind_ok {α β : Type} {p : Parser α} {f : α → Parser β} {c : ParseSettings}
    {s : ParseState} {r : β × ParseState} (h : (p >>= f) c s = .ok r) :
    ∃ a s1, p c s = .ok (a, s1) ∧ f a c s1 = .ok r := by
  rw [run_bind] at h
  cases hp : p c s with
  | error ds =>
    rw [hp] at h
    cases h
  | ok r1 =>
    rw [hp] at h
    exact ⟨r1.1, r1.2, rfl, h⟩

theorem current_ok {c : ParseSettings} {s s' : ParseState} {t : Token}
    (h : current c s = .ok (t, s')) : t = front c s ∧ s = s' := by
  cases h
  exact ⟨rfl, rfl⟩

theorem build_ok {kind : NodeKind Symbol NodeId} {span : Span} {c : ParseSettings}
    {s s' : ParseState} {b : Built} (h : build kind span c s = .ok (b, s')) :
    b = ⟨s.arena.size, kind, span⟩ ∧ s' = s.grow ⟨kind, span⟩ := by
  unfold build at h
  split at h
  · cases h
  · cases h
    exact ⟨rfl, rfl⟩

section

variable {c : ParseSettings} {s s' : ParseState} {depth fuel : Nat} {done : Array NodeId}

/-- One round: at the end of the stream it stops, an item is read, and anything
else is reported and passed over. -/
theorem itemsToEnd_succ (depth fuel : Nat) (done : Array NodeId) :
    itemsToEnd depth (fuel + 1) done = (do
      let t ← current
      if t.kind = .eof then return done.toList
      else
        match itemReader? depth t.kind with
        | some p => itemsToEnd depth fuel (done.push (← p).id)
        | none =>
          fault (.notAnItem t.kind) t.span
          skipToItem
          itemsToEnd depth fuel done) := by
  rw [itemsToEnd]
  congr 1
  funext t
  unfold itemReader?
  split <;> simp_all

theorem itemsToEnd_end (hrest : s.rest = []) (depth fuel : Nat) (done : Array NodeId) :
    itemsToEnd depth (fuel + 1) done c s = .ok (done.toList, s) := by
  have hfront : (front c s).kind = .eof := by rw [front, hrest]; rfl
  apply run_of_post
  rw [itemsToEnd_succ, post_bind, post_current, if_pos hfront]
  rfl

theorem itemsToEnd_item {p : Parser Built} {b : Built}
    (hp : itemReader? depth (front c s).kind = some p) (hrun : p c s = .ok (b, s'))
    (fuel : Nat) (done : Array NodeId) :
    itemsToEnd depth (fuel + 1) done c s = itemsToEnd depth fuel (done.push b.id) c s' := by
  have hfront : (front c s).kind ≠ .eof := by
    intro heof
    rw [heof] at hp
    cases hp
  rw [itemsToEnd_succ, run_bind, run_current]
  dsimp only
  rw [if_neg hfront, hp]
  dsimp only
  rw [run_bind, hrun]

/-- A strict reader that finds no further item has come to the end of the
stream. -/
theorem itemsToEnd_strict (hmode : c.mode = .strict) (depth fuel : Nat) (done : Array NodeId)
    (s : ParseState) :
    (itemsToEnd depth fuel done).Post c s
      (fun ids s' => done.size < ids.length ∨
        ids = done.toList ∧ s' = s ∧ (fuel = 0 ∨ (front c s).kind = .eof)) fun _ => True := by
  induction fuel generalizing done s with
  | zero => exact .inr ⟨rfl, rfl, .inl rfl⟩
  | succ fuel ih =>
    rw [itemsToEnd_succ, post_bind, post_current]
    split
    · next heof => exact .inr ⟨rfl, rfl, .inr heof⟩
    · split
      · rw [post_bind]
        apply post_true.imp
        intro b s1 _
        apply (ih (done.push b.id) s1).imp
        rintro ids s' (hmore | ⟨hids, -, -⟩)
        · rw [Array.size_push] at hmore
          exact .inl (Nat.lt_of_succ_lt hmore)
        · rw [hids, Array.length_toList, Array.size_push]
          exact .inl (Nat.lt_succ_self _)
      · rw [post_bind, post_fault_strict hmode]
        trivial

/-- A strict reader that finds a single item reads it in its first round. -/
theorem itemsToEnd_single (hmode : c.mode = .strict) {ids : List NodeId}
    (h : itemsToEnd depth (fuel + 1) #[] c s = .ok (ids, s')) (hsingle : ids.length = 1) :
    ∃ p b, itemReader? depth (front c s).kind = some p ∧ p c s = .ok (b, s') ∧ ids = [b.id] ∧
      (fuel = 0 ∨ (front c s').kind = .eof) := by
  rw [itemsToEnd_succ] at h
  obtain ⟨t, s1, hcurrent, h⟩ := run_bind_ok h
  obtain ⟨rfl, rfl⟩ := current_ok hcurrent
  split at h
  · cases h
    cases hsingle
  · cases hp : itemReader? depth (front c s).kind with
    | none =>
      rw [hp] at h
      obtain ⟨_, _, hfault, -⟩ := run_bind_ok h
      simp [fault, hmode] at hfault
    | some p =>
      rw [hp] at h
      obtain ⟨b, s1, hread, hmore⟩ := run_bind_ok h
      rcases (itemsToEnd_strict hmode _ _ _ _).of_ok hmore with hmany | ⟨rfl, rfl, hend⟩
      · rw [hsingle] at hmany
        exact absurd hmany (Nat.lt_irrefl _)
      · exact ⟨p, b, rfl, hread, rfl, hend⟩

theorem run_program (c : ParseSettings) (s : ParseState) :
    program c s =
      (do
        let items ← itemsToEnd c.maxDepth (c.tokenCount + 1) #[]
        let close := (← current).span
        build (.program items) ((front c s).span.to close)) c s :=
  rfl

/-- A program whose items were read is built around them if the limits allow. -/
theorem run_program_of_items {ids : List NodeId}
    (h : itemsToEnd c.maxDepth (c.tokenCount + 1) #[] c s = .ok (ids, s'))
    (hfits : s'.arena.refusal? (.program ids) = none) :
    ∃ span, program c s =
      .ok (⟨s'.arena.size, .program ids, span⟩, s'.grow ⟨.program ids, span⟩) := by
  refine ⟨(front c s).span.to (front c s').span, ?_⟩
  rw [run_program, run_bind, h]
  dsimp only
  apply run_of_post
  rw [post_bind, post_current, post_build]
  refine ⟨fun e he => ?_, fun _ => rfl⟩
  rw [hfits] at he
  cases he

/-- Whichever item it is, its reader does the same inside a longer stream, and
may end with the last token of its own. -/
theorem itemReader_carries {e : Embedding} {p : Parser Built}
    (hp : itemReader? depth (front e.inner s).kind = some p)
    (hapart : OpenImport s.rest → e.Quiet) :
    ∃ m : Ending, Carries e m Built s (e.bond.Node (.item depth)) p p ∧
      ∀ s', s'.rest = [] → m.Open e s' := by
  have hrest : s.rest ≠ [] := by
    intro hnil
    simp [front, hnil, itemReader?] at hp
  have hitem : ∃ m : Ending,
      Carries e m Built s (e.bond.Node (.item depth)) (item depth) (item depth) ∧
        ∀ s', s'.rest = [] → m.Open e s' := by
    refine ⟨.closing, item_closes depth s, fun s' hs' t ht => ?_⟩
    rw [hs'] at ht
    cases ht
  have himport (hfront : (front e.inner s).kind = .keyword .useKw ∨
      (front e.inner s).kind = .keyword .importKw) :
      ∃ m : Ending, Carries e m Built s (e.bond.Node (.item depth)) importPath importPath ∧
        ∀ s', s'.rest = [] → m.Open e s' := by
    have hhead : s.rest.head? = some (front e.inner s) := by
      cases hs : s.rest with
      | nil => exact absurd hs hrest
      | cons t ts => rw [front_of_rest hs]; rfl
    have hclose := (openImport_or_semicolon hhead hfront).imp_left hapart
    exact ⟨.importEnd, importPath_carries hrest hclose, fun _ _ => trivial⟩
  unfold itemReader? at hp
  split at hp
  · cases hp
    exact hitem
  · cases hp
    exact hitem
  · cases hp
    exact hitem
  · next hfront =>
    cases hp
    exact himport (.inl hfront)
  · next hfront =>
    cases hp
    exact himport (.inr hfront)
  · cases hp

end

end Parser

/-! ### Items on their own -/

/-- The tokens of an item, those behind it up to the next item, and the unit that
the item is on its own. -/
structure Fragment where
  tokens : List Token
  gap : List Token
  alone : Ast

namespace Fragment

def size (x : Fragment) : Nat :=
  x.alone.arena.size - 1

/-- The tokens are accepted as a single item and hold no closing token, at which a
reader of the longer stream would stop. What follows starts no item and cannot be
taken for a part of this one. -/
structure Sound (names : Interner) (opts : Options) (x : Fragment) : Prop where
  open_ended : ∀ t ∈ x.tokens, t.kind ≠ .eof
  accepted : ∃ close : Span,
    parse (.ofTokens x.tokens close names #[]) (opts.inMode .strict) = .ok ⟨x.alone, #[]⟩
  single : x.alone.items.length = 1
  gap : IsGap x.gap
  apart : OpenImport x.tokens → StartsApart x.gap

/-- Tokens that are accepted as an item with `count` nodes. -/
theorem exists_sound (names : Interner) (opts : Options) (tokens gap : List Token) (count : Nat)
    (htokens : ∀ t ∈ tokens, t.kind ≠ .eof)
    (hparse : ((parse (.ofTokens tokens {} names #[]) (opts.inMode .strict)).toOption.map
      fun parsed => (parsed.ast.arena.size, parsed.ast.items.length, parsed.diagnostics)) =
        some (count + 1, 1, #[]))
    (hgap : IsGap gap) (hapart : OpenImport tokens → StartsApart gap) :
    ∃ alone, Sound names opts ⟨tokens, gap, alone⟩ ∧ size ⟨tokens, gap, alone⟩ = count := by
  obtain ⟨⟨alone, ds⟩, hrun, hparsed⟩ := Option.map_eq_some_iff.mp hparse
  simp only [Prod.mk.injEq] at hparsed
  obtain ⟨hsize, hsingle, rfl⟩ := hparsed
  have haccepted : parse (.ofTokens tokens {} names #[]) (opts.inMode .strict) =
      .ok ⟨alone, #[]⟩ := by
    cases h : parse (.ofTokens tokens {} names #[]) (opts.inMode .strict) with
    | error ds => rw [h] at hrun; cases hrun
    | ok parsed => rw [h] at hrun; cases hrun; rfl
  exact ⟨alone, ⟨htokens, ⟨{}, haccepted⟩, hsingle, hgap, hapart⟩, Nat.sub_eq_of_eq_add hsize⟩

def settings (x : Fragment) (opts : Options) (close : Span) : ParseSettings :=
  ⟨.strict, opts.limits.maxDepth, close, x.tokens.length⟩

def start (x : Fragment) (names : Interner) (opts : Options) : ParseState :=
  ⟨x.tokens, 0, .withLimits opts.limits, names, #[]⟩

end Fragment

theorem Ast.items_append (a : Arena) (ids : List NodeId) (span : Span) (names : Interner) :
    Ast.items ⟨a.append ⟨.program ids, span⟩, names, a.size⟩ = ids := by
  have hroot : (a.append ⟨.program ids, span⟩).nodes[a.size]? = some ⟨.program ids, span⟩ :=
    Array.getElem?_push_size
  unfold Ast.items
  rw [hroot]

namespace Parser

section

variable {x : Fragment} {names : Interner} {opts : Options} {close : Span}

theorem length_start : (x.start names opts).rest.length ≤ (x.settings opts close).tokenCount :=
  Nat.le_refl _

/-- A run of the item's reader stays within the tokens of the item. -/
theorem advanced_of_read {p : Parser Built} {b : Built} {s : ParseState}
    (hp : itemReader? opts.limits.maxDepth
      (front (x.settings opts close) (x.start names opts)).kind = some p)
    (hrun : p (x.settings opts close) (x.start names opts) = .ok (b, s)) :
    (x.start names opts).Advanced s := by
  let e : Embedding :=
    ⟨x.settings opts close, x.settings opts close, rfl, Nat.le_refl _, #[], 0, [], #[], 0⟩
  obtain ⟨m, hcarries, -⟩ := itemReader_carries (e := e) hp fun _ => nofun
  exact ((hcarries length_start).of_ok hrun).1

/-- How a single item is read on its own: its reader takes every token. -/
theorem read_alone (hx : x.Sound names opts) :
    ∃ (close : Span) (p : Parser Built) (b : Built) (s : ParseState) (span : Span),
      itemReader? opts.limits.maxDepth
        (front (x.settings opts close) (x.start names opts)).kind = some p ∧
      p (x.settings opts close) (x.start names opts) = .ok (b, s) ∧ s.rest = [] ∧
      x.alone = ⟨s.arena.append ⟨.program [b.id], span⟩, s.names, s.arena.size⟩ := by
  obtain ⟨close, hparse⟩ := hx.accepted
  have hread := readProgram_of_parse hparse
  rw [readProgram_eq, ParseSettings.ofStream_ofTokens, ParseState.ofStream_ofTokens] at hread
  change Parsed.ofRun <$> program (x.settings opts close) (x.start names opts) = _ at hread
  cases hrun : program (x.settings opts close) (x.start names opts) with
  | error ds =>
    rw [hrun] at hread
    cases hread
  | ok r =>
    obtain ⟨root, s'⟩ := r
    rw [hrun] at hread
    rw [run_program] at hrun
    obtain ⟨ids, s, hids, hrun⟩ := run_bind_ok hrun
    obtain ⟨t, s1, hcurrent, hbuild⟩ := run_bind_ok hrun
    obtain ⟨rfl, rfl⟩ := current_ok hcurrent
    obtain ⟨rfl, rfl⟩ := build_ok hbuild
    have halone : x.alone = ⟨s.arena.append ⟨.program ids, _⟩, s.names, s.arena.size⟩ :=
      (congrArg Parsed.ast (Except.ok.inj hread)).symm
    have hsingle := hx.single
    rw [halone, Ast.items_append] at hsingle
    obtain ⟨p, b, hp, hitem, rfl, hend⟩ := itemsToEnd_single rfl hids hsingle
    refine ⟨close, p, b, s, _, hp, hitem, ?_, halone⟩
    have hsuffix : s.rest <:+ x.tokens := (advanced_of_read hp hitem).rest
    cases hrest : s.rest with
    | nil => rfl
    | cons t ts =>
      rw [hrest] at hsuffix
      rcases hend with hnone | heof
      · rw [List.length_eq_zero_iff.mp hnone] at hsuffix
        exact absurd (List.suffix_nil.mp hsuffix) nofun
      · rw [front_of_rest hrest] at heof
        exact absurd heof (hx.open_ended t (hsuffix.subset List.mem_cons_self))

theorem starts_with_item (hx : x.Sound names opts) :
    ∃ t ts, x.tokens = t :: ts ∧ startsItem t.kind = true := by
  obtain ⟨close, p, b, s, span, hp, -⟩ := read_alone hx
  cases hrest : x.tokens with
  | nil => simp [front, Fragment.start, hrest, itemReader?] at hp
  | cons t ts =>
    rw [front_of_rest (show (x.start names opts).rest = t :: ts from hrest)] at hp
    refine ⟨t, ts, rfl, ?_⟩
    by_contra hno
    rw [itemReader?_eq_none.mpr (Bool.not_eq_true _ ▸ hno)] at hp
    cases hp

end

end Parser

/-! ### Items among others -/

/-- What a stretch of a reading does: it leaves the tokens `more`, keeps all
nodes and puts `count` behind them, and reports `notes`. -/
structure ParseState.Went (s s' : ParseState) (more : List Token) (count : Nat)
    (notes : List Diagnostic) : Prop where
  rest : s'.rest = more
  nodes : ∃ built, s'.arena.nodes = s.arena.nodes ++ built
  size : s'.arena.size = s.arena.size + count
  maxNodes : s'.arena.maxNodes = s.arena.maxNodes
  maxChildren : s'.arena.maxChildren = s.arena.maxChildren
  names : s'.names = s.names
  diagnostics : s'.diagnostics.toList = s.diagnostics.toList ++ notes

namespace ParseState.Went

theorem refl (s : ParseState) : s.Went s s.rest 0 [] :=
  ⟨rfl, ⟨#[], Array.append_empty.symm⟩, rfl, rfl, rfl, rfl, (List.append_nil _).symm⟩

theorem trans {s s' s'' : ParseState} {more more' : List Token} {count count' : Nat}
    {notes notes' : List Diagnostic} (h : s.Went s' more count notes)
    (h' : s'.Went s'' more' count' notes') :
    s.Went s'' more' (count + count') (notes ++ notes') where
  rest := h'.rest
  nodes := by
    obtain ⟨built, hbuilt⟩ := h.nodes
    obtain ⟨built', hbuilt'⟩ := h'.nodes
    exact ⟨built ++ built', by rw [hbuilt', hbuilt, Array.append_assoc]⟩
  size := by rw [h'.size, h.size, Nat.add_assoc]
  maxNodes := h'.maxNodes.trans h.maxNodes
  maxChildren := h'.maxChildren.trans h.maxChildren
  names := h'.names.trans h.names
  diagnostics := by rw [h'.diagnostics, h.diagnostics, List.append_assoc]

end ParseState.Went

/-- The only item of a unit stands in an arena: all nodes but the root are
there, moved up by one distance, and the item itself at `id`. -/
def Ast.StandsAt (alone : Ast) (nodes : Array Node) (id : NodeId) : Prop :=
  ∃ k item : Nat, alone.items = [item] ∧ id = k + item ∧
    ∀ (j : NodeId) (n : Node), j ≠ alone.root → alone.arena.nodes[j]? = some n →
      nodes[k + j]? = some (n.shift k)

theorem Ast.StandsAt.later {alone : Ast} {nodes built : Array Node} {id : NodeId}
    (h : alone.StandsAt nodes id) : alone.StandsAt (nodes ++ built) id := by
  obtain ⟨k, item, hitem, hid, hnodes⟩ := h
  refine ⟨k, item, hitem, hid, fun j n hj hn => ?_⟩
  have hat := hnodes j n hj hn
  have hlt : k + j < nodes.size := (Array.getElem?_eq_some_iff.mp hat).1
  rw [Array.getElem?_append_left hlt]
  exact hat

namespace Parser

section

variable {x : Fragment} {names : Interner} {opts : Options} {c : ParseSettings}
  {s : ParseState} {more : List Token}

theorem place_start {e : Embedding} (hrest : s.rest = x.tokens ++ e.more)
    (hconsumed : s.consumed = e.taken) (hnodes : s.arena.nodes = e.before)
    (hmax : s.arena.maxNodes = e.maxNodes)
    (hchildren : s.arena.maxChildren = opts.limits.maxChildren) (hnames : s.names = names)
    (hreported : s.diagnostics = e.reported) : e.place (x.start names opts) = s := by
  obtain ⟨rest, consumed, ⟨nodes, maxNodes, maxChildren⟩, names', ds⟩ := s
  simp_all [Embedding.place, Fragment.start, Arena.withLimits]

/-- The nodes of an item in a longer stream are those of the item alone. -/
theorem stands_in_place {e : Embedding} {b : Built} {s : ParseState} {span : Span} {alone : Ast}
    (halone : alone = ⟨s.arena.append ⟨.program [b.id], span⟩, s.names, s.arena.size⟩) :
    alone.StandsAt (e.place s).arena.nodes (e.shift + b.id) := by
  refine ⟨e.shift, b.id, ?_, rfl, fun j n hj hn => ?_⟩
  · rw [halone, Ast.items_append]
  · rw [halone] at hj hn
    have hold : s.arena.nodes[j]? = some n := by
      have hj' : j ≠ s.arena.nodes.size := hj
      rw [Arena.append, Array.getElem?_push, if_neg hj'] at hn
      exact hn
    unfold Embedding.place Embedding.shift
    rw [Array.getElem?_append_right (Nat.le_add_right _ _), Nat.add_sub_cancel_left,
      Array.getElem?_map, hold]
    rfl

/-- What a reading of items needs: enough rounds, the names and the limit with
which the items were accepted, and room for `count` more nodes. -/
structure Prepared (c : ParseSettings) (names : Interner) (opts : Options) (s : ParseState)
    (count : Nat) : Prop where
  rounds : s.rest.length ≤ c.tokenCount
  names : s.names = names
  maxChildren : s.arena.maxChildren = opts.limits.maxChildren
  room : s.arena.size + count ≤ s.arena.maxNodes

theorem Prepared.went {s' : ParseState} {count count' : Nat} {notes : List Diagnostic}
    (h : Prepared c names opts s (count + count')) (hwent : s.Went s' more count notes)
    (hmore : more.length ≤ s.rest.length) : Prepared c names opts s' count' where
  rounds := by
    rw [hwent.rest]
    exact Nat.le_trans hmore h.rounds
  names := hwent.names.trans h.names
  maxChildren := hwent.maxChildren.trans h.maxChildren
  room := by
    rw [hwent.size, hwent.maxNodes, Nat.add_assoc]
    exact h.room

/-- An item is read inside a stream as it is on its own. -/
theorem read_inside {count : Nat} (hx : x.Sound names opts)
    (hprepared : Prepared c names opts s (x.size + count)) (hrest : s.rest = x.tokens ++ more)
    (hmore : OpenImport x.tokens → StartsApart more) :
    ∃ p b s', itemReader? opts.limits.maxDepth (front c s).kind = some p ∧
      p c s = .ok (b, s') ∧ s.Went s' more x.size [] ∧ x.alone.StandsAt s'.arena.nodes b.id := by
  obtain ⟨close, p, b, s1, span, hp, hrun, hend, halone⟩ := read_alone hx
  have hadv := advanced_of_read hp hrun
  have hlength : x.tokens.length ≤ c.tokenCount := by
    have hrounds := hprepared.rounds
    rw [hrest, List.length_append] at hrounds
    omega
  have hsize : x.size = s1.arena.size := by
    rw [Fragment.size, halone, Arena.size, Arena.append, Array.size_push, Nat.add_sub_cancel,
      Arena.size]
  let e : Embedding :=
    ⟨x.settings opts close, c, rfl, hlength, s.arena.nodes, s.consumed, more, s.diagnostics,
      s.arena.maxNodes⟩
  have hplace : e.place (x.start names opts) = s :=
    place_start hrest rfl rfl rfl hprepared.maxChildren hprepared.names rfl
  have hne : (x.start names opts).rest ≠ [] := by
    intro hnil
    simp [front, hnil, itemReader?] at hp
  obtain ⟨m, hcarries, hopen⟩ := itemReader_carries (e := e) hp hmore
  have hroom : e.Room s1 := by
    have hroom := hprepared.room
    rw [hsize, ← Nat.add_assoc] at hroom
    exact Nat.le_of_add_right_le hroom
  obtain ⟨-, -, b', hb', hinside⟩ := (hcarries length_start).of_ok hrun
  replace hinside := hinside (hopen s1 hend) hroom
  have hfront := e.front_place hne
  rw [hplace] at hinside hfront
  refine ⟨p, b', _, ?_, hinside, ?_, hb'.id ▸ stands_in_place halone⟩
  · rw [hfront]
    exact hp
  · exact {
      rest := by rw [Embedding.place, hend]; rfl
      nodes := ⟨_, rfl⟩
      size := by rw [e.size_place, hsize]; rfl
      maxNodes := rfl
      maxChildren := hadv.maxChildren.trans hprepared.maxChildren.symm
      names := hadv.names.trans hprepared.names.symm
      diagnostics := (List.append_nil _).symm }

/-- Where no gap is left, an item starts or the stream ends. -/
theorem head_starts_item {parts : List Fragment} (hparts : ∀ x ∈ parts, x.Sound names opts) :
    ∀ t ∈ (parts.flatMap fun x => x.tokens ++ x.gap).head?, startsItem t.kind = true := by
  intro t ht
  cases parts with
  | nil => cases ht
  | cons x parts =>
    obtain ⟨u, us, htokens, hu⟩ := starts_with_item (hparts x List.mem_cons_self)
    rw [List.flatMap_cons, htokens] at ht
    cases ht
    exact hu

theorem startsApart_append {gap : List Token} (hgap : StartsApart gap)
    (hmore : ∀ t ∈ more.head?, startsItem t.kind = true) : StartsApart (gap ++ more) := by
  intro t ht
  cases gap with
  | cons u us => exact hgap t ht
  | nil =>
    have hstart := hmore t ht
    refine ⟨?_, ?_, ?_⟩ <;>
    · intro hk
      rw [hk] at hstart
      cases hstart

/-- A gap is passed in one round, with one report at its first token. -/
theorem pass_gap {t : Token} {gap : List Token} (hmode : c.mode = .lenient)
    (hgap : IsGap (t :: gap)) (hrest : s.rest = t :: (gap ++ more))
    (hmore : ∀ t ∈ more.head?, startsItem t.kind = true) (depth fuel : Nat)
    (done : Array NodeId) :
    ∃ s', itemsToEnd depth (fuel + 1) done c s = itemsToEnd depth fuel done c s' ∧
      s.Went s' more 0 (gapNote (t :: gap)).toList := by
  obtain ⟨heof, hstart⟩ := hgap t List.mem_cons_self
  have hfront : front c s = t := front_of_rest hrest
  let d : Diagnostic := ⟨.parse, (ParseFault.notAnItem t.kind).message, some t.span⟩
  have hnext : (s.report d).next.rest = gap ++ more := by
    rw [ParseState.next_rest]
    exact congrArg List.tail hrest
  have hfault : fault (.notAnItem t.kind) t.span c s = .ok ((), s.report d) := by
    apply run_of_post
    rw [post_fault]
    simp [hmode, d]
  have hskip : skipToItem c (s.report d) = .ok ((), (s.report d).next.skip gap.length) := by
    have hpass : (gap ++ more).takeWhile (fun t => decide (t.kind ≠ .eof) && !startsItem t.kind) =
        gap := by
      rw [List.takeWhile_append_of_pos]
      · cases more with
        | nil => exact List.append_nil _
        | cons u us =>
          rw [List.takeWhile_cons_of_neg, List.append_nil]
          simp [hmore u rfl]
      · intro u hu
        obtain ⟨hu1, hu2⟩ := hgap u (List.mem_cons_of_mem _ hu)
        simp [hu1, hu2]
    apply run_of_post
    unfold skipToItem
    rw [post_bind, post_advance, post_advanceWhile, hnext, hpass]
  refine ⟨(s.report d).next.skip gap.length, ?_, ?_⟩
  · rw [itemsToEnd_succ, run_bind, run_current]
    dsimp only
    rw [hfront, if_neg heof, itemReader?_eq_none.mpr hstart]
    dsimp only
    rw [run_bind, hfault]
    dsimp only
    rw [run_bind, hskip]
  · exact {
      rest := by rw [ParseState.skip, hnext, List.drop_left]
      nodes := ⟨#[], by simp [ParseState.skip, ParseState.report]⟩
      size := by simp [ParseState.skip, ParseState.report]
      maxNodes := by simp [ParseState.skip, ParseState.report]
      maxChildren := by simp [ParseState.skip, ParseState.report]
      names := by simp [ParseState.skip, ParseState.report]
      diagnostics := by simp [ParseState.skip, ParseState.report, gapNote, d] }

/-- Whether there is a gap or not, the next item or the end is reached, with
rounds left. -/
theorem to_item {gap : List Token} (hmode : c.mode = .lenient) (hgap : IsGap gap)
    (hrest : s.rest = gap ++ more) (hmore : ∀ t ∈ more.head?, startsItem t.kind = true)
    {fuel : Nat} (hfuel : s.rest.length < fuel) (depth : Nat) (done : Array NodeId) :
    ∃ fuel' s', itemsToEnd depth fuel done c s = itemsToEnd depth (fuel' + 1) done c s' ∧
      s.Went s' more 0 (gapNote gap).toList ∧ more.length ≤ fuel' := by
  cases gap with
  | nil =>
    have hmore' : more = s.rest := hrest.symm
    obtain ⟨fuel', rfl⟩ : ∃ fuel', fuel = fuel' + 1 := ⟨fuel - 1, by omega⟩
    rw [hmore']
    exact ⟨fuel', s, rfl, .refl s, by omega⟩
  | cons t gap =>
    rw [hrest, List.length_append, List.length_cons] at hfuel
    obtain ⟨fuel', rfl⟩ : ∃ fuel', fuel = fuel' + 1 + 1 := ⟨fuel - 2, by omega⟩
    obtain ⟨s', hpass, hwent⟩ := pass_gap hmode hgap hrest hmore depth (fuel' + 1) done
    exact ⟨fuel', s', hpass, hwent, by omega⟩

theorem filterMap_gapNote (gap : List Token) (gaps : List (List Token)) :
    (gap :: gaps).filterMap gapNote = (gapNote gap).toList ++ gaps.filterMap gapNote := by
  rw [List.filterMap_cons]
  cases gapNote gap <;> rfl

/-- A whole stream: the gap before the first item, then items with their gaps. -/
theorem read_fragments (hmode : c.mode = .lenient) {parts : List Fragment}
    (hparts : ∀ x ∈ parts, x.Sound names opts) {gap : List Token} (hgap : IsGap gap)
    (s : ParseState) (fuel : Nat) (done : Array NodeId)
    (hprepared : Prepared c names opts s (parts.map Fragment.size).sum)
    (hrest : s.rest = gap ++ parts.flatMap fun x => x.tokens ++ x.gap)
    (hfuel : s.rest.length < fuel) :
    ∃ ids s', itemsToEnd opts.limits.maxDepth fuel done c s = .ok (done.toList ++ ids, s') ∧
      s.Went s' [] (parts.map Fragment.size).sum
        ((gap :: parts.map Fragment.gap).filterMap gapNote) ∧
      List.Forall₂ (fun x id => x.alone.StandsAt s'.arena.nodes id) parts ids := by
  rw [filterMap_gapNote]
  induction parts generalizing gap s fuel done with
  | nil =>
    obtain ⟨fuel', s1, hpass, hwent, -⟩ := to_item hmode hgap hrest nofun hfuel _ done
    refine ⟨[], s1, ?_, ?_, .nil⟩
    · rw [hpass, itemsToEnd_end hwent.rest, List.append_nil]
    · rw [show (List.map Fragment.gap []).filterMap gapNote = [] from rfl, List.append_nil]
      exact hwent
  | cons x parts ih =>
    have hx := hparts x List.mem_cons_self
    have hothers := fun y hy => hparts y (List.mem_cons_of_mem _ hy)
    obtain ⟨fuel', s1, hpass, hwent1, hfuel'⟩ :=
      to_item hmode hgap hrest (head_starts_item hparts) hfuel opts.limits.maxDepth done
    rw [List.map_cons, List.sum_cons] at hprepared
    have hprepared1 : Prepared c names opts s1 (x.size + (parts.map Fragment.size).sum) := by
      have hprepared0 : Prepared c names opts s (0 + (x.size + (parts.map Fragment.size).sum)) := by
        rwa [Nat.zero_add]
      refine hprepared0.went hwent1 ?_
      rw [hrest]
      exact (List.suffix_append _ _).length_le
    have hrest1 := hwent1.rest
    rw [List.flatMap_cons, List.append_assoc] at hrest1 hfuel'
    have hapart := fun h => startsApart_append (hx.apart h) (head_starts_item hothers)
    obtain ⟨p, b, s2, hp, hrun, hwent2, hstands⟩ := read_inside hx hprepared1 hrest1 hapart
    -- an item has a token, so there is a round less but also less to read
    obtain ⟨t, ts, htokens, -⟩ := starts_with_item hx
    rw [htokens, List.length_append, List.length_cons, ← hwent2.rest] at hfuel'
    have hprepared2 := hprepared1.went hwent2 (by
      rw [hrest1]
      exact (List.suffix_append _ _).length_le)
    obtain ⟨ids, s3, hread, hwent3, hall⟩ :=
      ih hothers hx.gap s2 fuel' (done.push b.id) hprepared2 hwent2.rest (by omega)
    refine ⟨b.id :: ids, s3, ?_, ?_, .cons ?_ hall⟩
    · rw [hpass, itemsToEnd_item hp hrun, hread, Array.toList_push, List.append_assoc]
      rfl
    · have hwent := (hwent1.trans hwent2).trans hwent3
      rw [List.append_nil, Nat.zero_add] at hwent
      rw [List.map_cons, List.map_cons, List.sum_cons, filterMap_gapNote]
      exact hwent
    · obtain ⟨built, hbuilt⟩ := hwent3.nodes
      rw [hbuilt]
      exact hstands.later

end

end Parser

/-- Recovery between items never damages one. Whatever tokens stand before,
between and behind items, as long as they start none and cannot be taken for a
part of an import, the lenient reader finds exactly those items. Each of them has
the nodes that it has on its own, moved up by one distance, and each gap is
reported once, at its first token. The limits must leave room for all nodes and
for the root's children, and no closing token may stand in an item or a gap, as
the reader stops at it. -/
theorem recovery_keeps_items (opts : Options) (names : Interner) (noise : Diagnostics)
    (close : Span) (lead : List Token) (parts : List Fragment) (hlead : IsGap lead)
    (hparts : ∀ x ∈ parts, x.Sound names opts)
    (hnodes : (parts.map Fragment.size).sum < opts.limits.clamped.maxNodes)
    (hchildren : parts.length ≤ opts.limits.maxChildren) :
    ∃ (parsed : Parsed) (ids : List NodeId) (span : Span),
      parse (.ofTokens (lead ++ parts.flatMap fun x => x.tokens ++ x.gap) close names noise)
        (opts.inMode .lenient) = .ok parsed ∧
      parsed.ast.arena.nodes[parsed.ast.root]? = some ⟨.program ids, span⟩ ∧
      List.Forall₂ (fun x id => x.alone.StandsAt parsed.ast.arena.nodes id) parts ids ∧
      parsed.ast.names = names ∧
      parsed.diagnostics.toList =
        noise.toList ++ (lead :: parts.map Fragment.gap).filterMap gapNote := by
  let tokens := lead ++ parts.flatMap fun x => x.tokens ++ x.gap
  let c : ParseSettings := ⟨.lenient, opts.limits.maxDepth, close, tokens.length⟩
  let s : ParseState := ⟨tokens, 0, .withLimits opts.limits, names, noise⟩
  have hempty : s.arena.size = 0 := rfl
  have hmax : s.arena.maxNodes = opts.limits.clamped.maxNodes := rfl
  have hmany : s.arena.maxChildren = opts.limits.maxChildren := rfl
  have hprepared : Parser.Prepared c names opts s (parts.map Fragment.size).sum :=
    ⟨Nat.le_refl _, rfl, hmany, by omega⟩
  obtain ⟨ids, s', hread, hwent, hall⟩ := Parser.read_fragments rfl hparts hlead s
    (tokens.length + 1) #[] hprepared rfl (Nat.lt_succ_self _)
  rw [List.nil_append] at hread
  have hfits : s'.arena.refusal? (.program ids) = none := by
    rw [Arena.refusal?_eq_none, hwent.maxChildren, hwent.size, hwent.maxNodes, hmany, hempty, hmax]
    have hlength : (NodeKind.program ids : NodeKind Symbol NodeId).children.length =
        parts.length := hall.length_eq.symm
    omega
  obtain ⟨span, hrun⟩ := Parser.run_program_of_items (c := c) (s := s) hread hfits
  refine ⟨.ofRun (⟨s'.arena.size, .program ids, span⟩, s'.grow ⟨.program ids, span⟩), ids, span,
    ?_, Array.getElem?_push_size, ?_, hwent.names, hwent.diagnostics⟩
  · rw [parse_lenient, readProgram_eq, ParseSettings.ofStream_ofTokens,
      ParseState.ofStream_ofTokens]
    change Parsed.ofRun <$> Parser.program c s = _
    rw [hrun]
    rfl
  · refine hall.imp fun x id h => ?_
    change x.alone.StandsAt (s'.arena.nodes.push _) id
    rw [Array.push_eq_append]
    exact h.later

/-- An open import, a function and a closed import, with a gap before the first,
one behind it and one behind the last that starts with a semicolon. -/
theorem recovery_keeps_items_around_gaps :
    ∃ path function closed : Ast,
      let parts : List Fragment :=
        [⟨[⟨.keyword .useKw, {}⟩, ⟨.ident 0, {}⟩], [⟨.punct .plus, {}⟩], path⟩,
          ⟨[⟨.keyword .fnKw, {}⟩, ⟨.ident 1, {}⟩, ⟨.punct .lparen, {}⟩, ⟨.punct .rparen, {}⟩,
            ⟨.punct .lbrace, {}⟩, ⟨.punct .rbrace, {}⟩], [], function⟩,
          ⟨[⟨.keyword .useKw, {}⟩, ⟨.ident 0, {}⟩, ⟨.punct .semicolon, {}⟩],
            [⟨.punct .semicolon, {}⟩, ⟨.punct .dot, {}⟩], closed⟩]
      (∀ x ∈ parts, x.Sound .empty {}) ∧
      ∃ (parsed : Parsed) (ids : List NodeId) (span : Span),
        parse (.ofTokens ([⟨.punct .rbrace, {}⟩] ++ parts.flatMap fun x => x.tokens ++ x.gap) {}
          .empty #[]) (({} : Options).inMode .lenient) = .ok parsed ∧
        parsed.ast.arena.nodes[parsed.ast.root]? = some ⟨.program ids, span⟩ ∧ ids.length = 3 ∧
        parsed.diagnostics.size = 3 := by
  obtain ⟨path, hpath, hpathSize⟩ := Fragment.exists_sound .empty {}
    [⟨.keyword .useKw, {}⟩, ⟨.ident 0, {}⟩] [⟨.punct .plus, {}⟩] 1
    (by decide) (by decide +kernel) (by decide) (by decide)
  obtain ⟨function, hfunction, hfunctionSize⟩ := Fragment.exists_sound .empty {}
    [⟨.keyword .fnKw, {}⟩, ⟨.ident 1, {}⟩, ⟨.punct .lparen, {}⟩, ⟨.punct .rparen, {}⟩,
      ⟨.punct .lbrace, {}⟩, ⟨.punct .rbrace, {}⟩] [] 2
    (by decide) (by decide +kernel) (by decide) (by decide)
  obtain ⟨closed, hclosed, hclosedSize⟩ := Fragment.exists_sound .empty {}
    [⟨.keyword .useKw, {}⟩, ⟨.ident 0, {}⟩, ⟨.punct .semicolon, {}⟩]
    [⟨.punct .semicolon, {}⟩, ⟨.punct .dot, {}⟩] 1
    (by decide) (by decide +kernel) (by decide) (by decide)
  refine ⟨path, function, closed, ?_⟩
  intro parts
  have hparts : ∀ x ∈ parts, x.Sound .empty {} := by
    intro x hx
    simp only [parts, List.mem_cons, List.not_mem_nil, or_false] at hx
    rcases hx with rfl | rfl | rfl
    · exact hpath
    · exact hfunction
    · exact hclosed
  have hsum : (parts.map Fragment.size).sum = 4 := by
    simp only [parts, List.map_cons, hpathSize, hfunctionSize, hclosedSize]
    rfl
  have hlength : parts.length ≤ ({} : Options).limits.maxChildren :=
    show 3 ≤ ({} : Options).limits.maxChildren by decide
  obtain ⟨parsed, ids, span, hparse, hroot, hall, -, hnotes⟩ :=
    recovery_keeps_items {} .empty #[] {} [⟨.punct .rbrace, {}⟩] parts (by decide) hparts
      (by rw [hsum]; decide) hlength
  refine ⟨hparts, parsed, ids, span, hparse, hroot, hall.length_eq.symm, ?_⟩
  rw [← Array.length_toList, hnotes]
  rfl

end StagedCompiler
