import StagedCompiler.Proofs.Lexer.SourceCuts

/-!
Tokens, blanks, comments and stray characters share a source among themselves.
The cuts of a source lie end to end; each makes a token, or it is a stretch of
one of five sorts, so every byte is in exactly one token or stretch. A stretch
is told from the source alone; of those that are at fault each is reported, a
stray character exactly once.
-/

namespace StagedCompiler

def Text.slice (src : String) (start stop : Nat) : List UInt8 :=
  ((bytes src).drop start).take (stop - start)

/-! ### Stretches outside of tokens -/

inductive Trivia where
  | blanks
  | lineComment
  | blockComment
  /-- A block comment that nothing closes. -/
  | openComment
  | stray
deriving DecidableEq

/-- A stretch of a source that belongs to no token. -/
structure Stretch where
  sort : Trivia
  start : Nat
  stop : Nat

def Span.covers (i : Nat) (a : Span) : Bool :=
  decide (a.start ≤ i ∧ i < a.stop)

namespace Stretch

def covers (i : Nat) (g : Stretch) : Bool :=
  decide (g.start ≤ i ∧ i < g.stop)

def text (src : String) (g : Stretch) : List UInt8 :=
  Text.slice src g.start g.stop

/-- The stretch is what its sort says. A line comment ends with its line, a block
comment with the first `*/` behind its opening, or with the source if there is
none; a stray character is a whole one, or the one byte at an offset inside of a
character. -/
def Holds (src : String) (g : Stretch) : Prop :=
  match g.sort with
  | .blanks => ∀ b ∈ g.text src, b ∈ [32, 9, 10, 12, 13]
  | .lineComment => ∃ body, g.text src = 47 :: 47 :: body ∧ 10 ∉ body ∧
      ∀ b ∈ ((Text.bytes src).drop g.stop).head?, b = 10
  | .blockComment => ∃ body, g.text src = 47 :: 42 :: (body ++ [42, 47]) ∧ ¬[42, 47] <:+: body
  | .openComment => ∃ body, g.text src = 47 :: 42 :: body ∧ ¬[42, 47] <:+: body ∧
      g.stop = src.utf8ByteSize
  | .stray => (⟨g.start⟩ : String.Pos.Raw).IsValid src ∧
        (∃ ch, g.text src = String.utf8EncodeChar ch) ∨
      ¬(⟨g.start⟩ : String.Pos.Raw).IsValid src ∧ g.stop = g.start + 1

end Stretch

namespace Diagnostic

def isUnexpected (d : Diagnostic) : Bool :=
  "unexpected ".toList.isPrefixOf d.message.toList

def MarksOut (d : Diagnostic) (g : Stretch) : Prop :=
  ∃ a, d.span = some a ∧ a.start = g.start ∧ a.stop = g.stop

end Diagnostic

def strays (ds : List Diagnostic) : List Span :=
  (ds.filter Diagnostic.isUnexpected).filterMap Diagnostic.span

/-- What has to be reported is: an open comment, and each byte of a stray
character once. -/
def Stretch.Reported (ds : Diagnostics) (g : Stretch) : Prop :=
  match g.sort with
  | .openComment => ∃ d ∈ ds, d.message = "unterminated block comment" ∧ d.MarksOut g
  | .stray => (∃ d ∈ ds, d.isUnexpected = true ∧ d.MarksOut g) ∧
      ∀ i, g.covers i = true → (strays ds.toList).countP (·.covers i) = 1
  | _ => True

/-! ### Cuts as tokens and stretches -/

def Piece.trivia? : Piece → Option Trivia
  | blank _ => some .blanks
  | lineComment _ => some .lineComment
  | blockComment _ true => some .blockComment
  | blockComment _ false => some .openComment
  | strayChar _ | strayByte _ => some .stray
  | _ => none

theorem isUnexpected_append (text : String) :
    "unexpected ".toList.isPrefixOf ("unexpected " ++ text).toList = true := by
  rw [List.isPrefixOf_iff_prefix, String.toList_append]
  exact List.prefix_append _ _

def LexFault.isStray : LexFault → Bool
  | strayChar _ | strayByte _ => true
  | _ => false

/-- Only stray characters are not expected. -/
theorem LexFault.isUnexpected_message (fault : LexFault) :
    "unexpected ".toList.isPrefixOf fault.message.toList = fault.isStray := by
  cases fault with
  | openComment | openString | openChar | emptyChar => decide
  | hugeInt digits =>
    change List.isPrefixOf _ ("integer literal out of range: " ++ Text.ofLatin1 digits).toList = _
    rw [String.toList_append]
    rfl
  | strayChar ch =>
    change List.isPrefixOf _ ("unexpected " ++ "character '" ++ ch.toString ++ "'").toList = _
    rw [String.append_assoc, String.append_assoc]
    exact isUnexpected_append _
  | strayByte b =>
    change List.isPrefixOf _
      ("unexpected " ++ "byte 0x" ++ String.ofList (Nat.toDigits 16 b.toNat)).toList = _
    rw [String.append_assoc]
    exact isUnexpected_append _

namespace Piece

/-- A piece makes a token, or it is a stretch without one. -/
theorem token_or_trivia (p : Piece) (names : Interner) :
    (∃ kind, (p.token names).1 = some kind ∧ p.trivia? = none) ∨
      ∃ sort, (p.token names).1 = none ∧ p.trivia? = some sort := by
  cases p with
  | numeral literal =>
    refine .inl ?_
    simp only [token]
    split
    · exact ⟨_, rfl, rfl⟩
    · exact ⟨_, rfl, rfl⟩
  | word lexeme =>
    refine .inl ?_
    simp only [token]
    split
    · exact ⟨_, rfl, rfl⟩
    · exact ⟨_, rfl, rfl⟩
  | string _ _ _ | char _ _ _ | punct _ => exact .inl ⟨_, rfl, rfl⟩
  | blockComment _ closed => cases closed <;> exact .inr ⟨_, rfl, rfl⟩
  | blank _ | lineComment _ | strayChar _ | strayByte _ => exact .inr ⟨_, rfl, rfl⟩

/-- A piece without a token is what its sort says. -/
theorem Front.holds {p : Piece} {src : String} {sort : Trivia} {start stop : Nat}
    {lexeme after : List UInt8} (h : Front p lexeme after) (hsort : p.trivia? = some sort)
    (hrest : (Text.bytes src).drop start = lexeme ++ after)
    (hstop : stop = start + lexeme.length) : (⟨sort, start, stop⟩ : Stretch).Holds src := by
  have htext : (⟨sort, start, stop⟩ : Stretch).text src = lexeme := by
    rw [Stretch.text, Text.slice, hrest, hstop, Nat.add_sub_cancel_left, List.take_left]
  have hafter : (Text.bytes src).drop stop = after := by
    rw [hstop, ← List.drop_drop, hrest, List.drop_left]
  have hinside : start < src.utf8ByteSize := by
    have hne := List.append_ne_nil_of_left_ne_nil h.ne_nil after
    rw [← hrest] at hne
    have hpos := List.length_pos_iff.mpr hne
    rw [List.length_drop, length_bytes] at hpos
    omega
  have hvalid := Text.isSome_firstChar?_drop hinside
  rw [hrest] at hvalid
  cases h with
  | blank _ hblank =>
    cases hsort
    intro b hb
    rw [htext] at hb
    simpa using Byte.blank_cases (hblank b hb)
  | lineComment hbody hline =>
    cases hsort
    refine ⟨_, htext, hbody, ?_⟩
    dsimp only
    rw [hafter]
    exact hline
  | closedComment hbody =>
    cases hsort
    exact ⟨_, htext, hbody⟩
  | openComment hbody =>
    cases hsort
    refine ⟨_, htext, hbody, ?_⟩
    have hlength := congrArg List.length hrest
    rw [List.length_drop, length_bytes, List.length_append, List.length_nil] at hlength
    dsimp only
    omega
  | strayChar _ =>
    cases hsort
    refine .inl ⟨hvalid.mp ?_, _, htext⟩
    rw [Text.firstChar?_eq_some_iff.mpr (List.prefix_append _ _)]
    rfl
  | strayByte _ hnone =>
    cases hsort
    refine .inr ⟨fun hstart => ?_, hstop⟩
    rw [List.singleton_append, hnone] at hvalid
    cases hvalid.mpr hstart
  | numeral _ _ | word _ _ | string | char _ | punct _ => cases hsort

theorem fault?_of_openComment (p : Piece) (h : p.trivia? = some .openComment) :
    p.fault? = some .openComment := by
  cases p with
  | blockComment _ closed =>
    cases closed with
    | true => cases h
    | false => rfl
  | _ => cases h

/-- Faults of other pieces than stray characters do not look like theirs. -/
theorem Front.isStray_fault {p : Piece} {lexeme after : List UInt8} (h : Front p lexeme after) :
    p.fault?.any LexFault.isStray = decide (p.trivia? = some .stray) := by
  cases h with
  | @numeral n _ _ _ =>
    simp only [fault?]
    split
    · rfl
    · split
      · rfl
      · rfl
  | @string _ _ _ closed => cases closed <;> rfl
  | char hfault =>
    simp only [List.mem_cons, List.not_mem_nil, or_false] at hfault
    rcases hfault with rfl | rfl | rfl <;> rfl
  | blank _ _ | lineComment _ _ | closedComment _ | openComment _ | word _ _ | punct _
  | strayChar _ | strayByte _ _ => rfl

end Piece

namespace Cut

variable {bytes : List UInt8} {src : String} {c : Cut} {cs : List Cut} {low high i : Nat}

/-- The stretch that a cut without a token is. -/
def stretch? (c : Cut) : Option Stretch :=
  c.piece.trivia?.map fun sort => ⟨sort, c.here.offset, c.there.offset⟩

def covers (i : Nat) (c : Cut) : Bool :=
  c.place.covers i

/-- A byte is covered as often by tokens and stretches as by the cuts they are. -/
theorem countP_parts (hspans : ∀ c ∈ cs, c.span = c.place) (i : Nat) :
    (cs.filterMap token?).countP (·.span.covers i) + (cs.filterMap stretch?).countP (·.covers i) =
      cs.countP (covers i) := by
  induction cs with
  | nil => rfl
  | cons c cs ih =>
    have ih := ih fun c' hc' => hspans c' (List.mem_cons_of_mem _ hc')
    rcases c.piece.token_or_trivia c.names with ⟨kind, hkind, hnone⟩ | ⟨sort, hnone, hsort⟩
    · have htoken : c.token? = some ⟨kind, c.span⟩ := by rw [token?, hkind, Option.map_some]
      have hstretch : c.stretch? = none := by rw [stretch?, hnone, Option.map_none]
      rw [List.filterMap_cons_some htoken, List.filterMap_cons_none hstretch, List.countP_cons,
        List.countP_cons, ← ih, Nat.add_right_comm, hspans c List.mem_cons_self]
      rfl
    · have htoken : c.token? = none := by rw [token?, hnone, Option.map_none]
      have hstretch : c.stretch? = some ⟨sort, c.here.offset, c.there.offset⟩ := by
        rw [stretch?, hsort, Option.map_some]
      rw [List.filterMap_cons_none htoken, List.filterMap_cons_some hstretch, List.countP_cons,
        List.countP_cons, ← ih, Nat.add_assoc]
      rfl

/-- Cuts that lie end to end cover each offset between their ends once. -/
theorem Tiles.countP_covers (h : Tiles low cs high) (hcs : ∀ c ∈ cs, c.Of bytes) (i : Nat) :
    low ≤ high ∧ cs.countP (covers i) = if low ≤ i ∧ i < high then 1 else 0 := by
  induction cs generalizing low with
  | nil =>
    cases h
    refine ⟨Nat.le_refl _, ?_⟩
    rw [if_neg (by omega)]
    rfl
  | cons c cs ih =>
    obtain ⟨rfl, htiles⟩ := h
    obtain ⟨hle, hcount⟩ := ih htiles fun c' hc' => hcs c' (List.mem_cons_of_mem _ hc')
    have hlt := (hcs c List.mem_cons_self).start_lt
    refine ⟨by omega, ?_⟩
    have hcovers : covers i c = decide (c.here.offset ≤ i ∧ i < c.there.offset) := rfl
    rw [List.countP_cons, hcount, hcovers]
    simp only [decide_eq_true_eq]
    split_ifs <;> omega

theorem Of.holds (h : c.Of (Text.bytes src)) {g : Stretch} (hg : c.stretch? = some g) :
    g.Holds src := by
  obtain ⟨sort, hsort, rfl⟩ := Option.map_eq_some_iff.mp hg
  apply h.front.holds hsort
  · rw [← h.place, lexeme, after, List.take_append_drop]
  · rw [h.stop, lexeme, List.length_take_of_le (Piece.length_le_of_atFront? h.found)]

def isStray (c : Cut) : Bool :=
  decide (c.piece.trivia? = some .stray)

def strays (cs : List Cut) : List Span :=
  (cs.filter isStray).map place

/-- Each stray character is reported by one diagnostic, and nothing else by such a one. -/
theorem strays_reports (hcs : ∀ c ∈ cs, c.Of bytes) (hspans : ∀ c ∈ cs, c.span = c.place) :
    StagedCompiler.strays (cs.filterMap report?) = strays cs := by
  unfold StagedCompiler.strays strays
  induction cs with
  | nil => rfl
  | cons c cs ih =>
    have hstray := (hcs c List.mem_cons_self).front.isStray_fault
    have hrest := ih (fun c' hc' => hcs c' (List.mem_cons_of_mem _ hc'))
      fun c' hc' => hspans c' (List.mem_cons_of_mem _ hc')
    rw [List.filter_cons, isStray, ← hstray]
    cases hfault : c.piece.fault? with
    | none =>
      have hreport : c.report? = none := by rw [report?, hfault, Option.map_none]
      rw [List.filterMap_cons_none hreport]
      exact hrest
    | some fault =>
      have hreport : c.report? = some ⟨.lex, fault.message, some c.span⟩ := by
        rw [report?, hfault, Option.map_some]
      have hunexpected : (⟨.lex, fault.message, some c.span⟩ : Diagnostic).isUnexpected =
          fault.isStray := fault.isUnexpected_message
      rw [List.filterMap_cons_some hreport, List.filter_cons, hunexpected, Option.any_some]
      cases fault.isStray with
      | true =>
        rw [hspans c List.mem_cons_self]
        exact congrArg (c.place :: ·) hrest
      | false => exact hrest

end Cut

namespace Cut

variable {bytes : List UInt8} {c : Cut} {cs : List Cut} {n : Nat}

/-- An offset of a stray character is in one diagnostic of those that report
such a one. -/
theorem Tiles.stray_once (h : Tiles 0 cs n) (hcs : ∀ c ∈ cs, c.Of bytes)
    (hspans : ∀ c ∈ cs, c.span = c.place) (hc : c ∈ cs) (hstray : c.isStray = true) {i : Nat}
    (hi : covers i c = true) :
    (StagedCompiler.strays (cs.filterMap report?)).countP (·.covers i) = 1 := by
  rw [strays_reports hcs hspans, strays, List.countP_map]
  have hcount := (h.countP_covers hcs i).2
  have hle : (cs.filter isStray).countP (covers i) ≤ cs.countP (covers i) :=
    List.filter_sublist.countP_le
  have hpos : 0 < (cs.filter isStray).countP (covers i) :=
    List.countP_pos_iff.mpr ⟨c, List.mem_filter.mpr ⟨hc, hstray⟩, hi⟩
  change (cs.filter isStray).countP (covers i) = 1
  split at hcount <;> omega

/-- The stretch of a cut is reported where it has to be. -/
theorem Tiles.reported (h : Tiles 0 cs n) (hcs : ∀ c ∈ cs, c.Of bytes)
    (hspans : ∀ c ∈ cs, c.span = c.place) (hc : c ∈ cs) {g : Stretch} (hg : c.stretch? = some g)
    {ds : Diagnostics} (hds : ds.toList = cs.filterMap report?) :
    g.Reported ds := by
  obtain ⟨sort, hsort, rfl⟩ := Option.map_eq_some_iff.mp hg
  have hmarks (fault : LexFault) :
      (⟨.lex, fault.message, some c.span⟩ : Diagnostic).MarksOut
        ⟨sort, c.here.offset, c.there.offset⟩ :=
    ⟨c.span, rfl, by rw [hspans c hc]; exact ⟨rfl, rfl⟩⟩
  have hmem (fault : LexFault) (hfault : c.piece.fault? = some fault) :
      (⟨.lex, fault.message, some c.span⟩ : Diagnostic) ∈ ds := by
    rw [← Array.mem_toList_iff, hds]
    refine List.mem_filterMap.mpr ⟨c, hc, ?_⟩
    rw [report?, hfault, Option.map_some]
  cases sort with
  | openComment =>
    have hfault := c.piece.fault?_of_openComment hsort
    exact ⟨_, hmem _ hfault, rfl, hmarks _⟩
  | stray =>
    refine ⟨?_, fun i hi => ?_⟩
    · have hany := (hcs c hc).front.isStray_fault
      rw [decide_eq_true hsort] at hany
      obtain ⟨fault, hfault, hstray⟩ := (Option.any_eq_true _ _).mp hany
      exact ⟨_, hmem _ hfault, fault.isUnexpected_message.trans hstray, hmarks _⟩
    · rw [hds]
      exact h.stray_once hcs hspans hc (decide_eq_true hsort) hi
  | blanks | lineComment | blockComment => trivial

end Cut

/-- The tokens of a source and the stretches between them share its bytes among
themselves. -/
structure SharedOut (src : String) (lexed : Lexed) (tokens : List Token) (gaps : List Stretch) :
    Prop where
  /-- Behind all other tokens stands one for the end of the source. -/
  closing : ∃ span, lexed.tokens.toList = tokens ++ [⟨.eof, span⟩] ∧
    span.start = src.utf8ByteSize ∧ span.stop = src.utf8ByteSize
  inside : ∀ t ∈ tokens, t.kind ≠ .eof ∧ t.span.start < t.span.stop ∧
    t.span.stop ≤ src.utf8ByteSize
  ordered : lexed.tokens.toList.Pairwise fun t u =>
    t.span.start < u.span.start ∧ t.span.stop ≤ u.span.start
  between : ∀ g ∈ gaps, g.start < g.stop ∧ g.stop ≤ src.utf8ByteSize ∧ g.Holds src ∧
    g.Reported lexed.diagnostics
  covered : ∀ i < src.utf8ByteSize,
    tokens.countP (·.span.covers i) + gaps.countP (·.covers i) = 1
  reports : ∀ d ∈ lexed.diagnostics, d.kind = .lex ∧ d.span.isSome
  rising : lexed.diagnostics.toList.Pairwise fun d d' =>
    ∀ a a', d.span = some a → d'.span = some a' → a.start < a'.start

/-- What a source below the limit is read as shares its bytes out. -/
theorem sharedOut_of_lex {src : String} {limits : Limits} {lexed : Lexed}
    (hsize : src.utf8ByteSize < Span.limit) (h : lex src limits = .ok lexed) :
    ∃ tokens gaps, SharedOut src lexed tokens gaps := by
  obtain ⟨cs, s, hpasses, hend, htokens, hreports, -⟩ := lex_passes h
  have hcs := hpasses.of_before
  have hspans := hpasses.span_eq hsize
  have htiles : Cut.Tiles 0 cs src.utf8ByteSize := hend ▸ hpasses.tiles
  have hstarts := htiles.pairwise hcs
  have htoken (t : Token) (ht : t ∈ cs.filterMap Cut.token?) :
      ∃ c ∈ cs, t.span = c.place ∧ t.kind ≠ .eof := by
    obtain ⟨c, hc, hct⟩ := List.mem_filterMap.mp ht
    obtain ⟨hkind, hspan⟩ := Cut.kind_of_token? hct
    exact ⟨c, hc, hspan.trans (hspans c hc), c.piece.token_ne_eof _ _ hkind⟩
  have hclose : s.here.offset % Span.limit = src.utf8ByteSize := by
    rw [hend, Nat.mod_eq_of_lt hsize]
  refine ⟨cs.filterMap Cut.token?, cs.filterMap Cut.stretch?, ?_⟩
  constructor
  case closing => exact ⟨_, htokens, hclose, hclose⟩
  case inside =>
    intro t ht
    obtain ⟨c, hc, hspan, hkind⟩ := htoken t ht
    rw [hspan]
    exact ⟨hkind, (hcs c hc).start_lt, (hcs c hc).stop_le⟩
  case ordered =>
    rw [htokens, List.pairwise_append, List.pairwise_filterMap]
    refine ⟨?_, List.pairwise_singleton _ _, ?_⟩
    · apply hstarts.imp_of_mem
      intro c c' hc hc' hlt t ht t' ht'
      rw [(Cut.kind_of_token? ht).2, (Cut.kind_of_token? ht').2, hspans c hc, hspans c' hc']
      exact hlt
    · intro t ht u hu
      obtain ⟨c, hc, hspan, -⟩ := htoken t ht
      have hlt := (hcs c hc).start_lt
      have hle := (hcs c hc).stop_le
      cases List.mem_singleton.mp hu
      rw [length_bytes, ← hclose] at hle
      rw [hspan]
      exact ⟨Nat.lt_of_lt_of_le hlt hle, hle⟩
  case between =>
    intro g hg
    obtain ⟨c, hc, hcg⟩ := List.mem_filterMap.mp hg
    have hholds := (hcs c hc).holds hcg
    have hreported := htiles.reported hcs hspans hc hcg hreports
    obtain ⟨sort, -, rfl⟩ := Option.map_eq_some_iff.mp hcg
    exact ⟨(hcs c hc).start_lt, length_bytes src ▸ (hcs c hc).stop_le, hholds, hreported⟩
  case covered =>
    intro i hi
    rw [Cut.countP_parts hspans, (htiles.countP_covers hcs i).2, if_pos ⟨Nat.zero_le i, hi⟩]
  case reports =>
    intro d hd
    rw [← Array.mem_toList_iff, hreports] at hd
    obtain ⟨c, -, hcd⟩ := List.mem_filterMap.mp hd
    obtain ⟨fault, -, rfl⟩ := Cut.fault_of_report? hcd
    exact ⟨rfl, rfl⟩
  case rising =>
    rw [hreports, List.pairwise_filterMap]
    apply hstarts.imp_of_mem
    intro c c' hc hc' hlt d hd d' hd' a a' ha ha'
    obtain ⟨fault, -, rfl⟩ := Cut.fault_of_report? hd
    obtain ⟨fault', -, rfl⟩ := Cut.fault_of_report? hd'
    cases ha
    cases ha'
    rw [hspans c hc, hspans c' hc']
    exact hlt.1

end StagedCompiler
