import StagedCompiler.Proofs.Parser.LargerRun

/-!
Every reader of items and of what stands in them does the same inside a longer
stream. Functions and structs end with a brace, so nothing behind them is
looked at; an import without a semicolon looks at one token behind it.
-/

namespace StagedCompiler.Parser

open Bond (Same Each)

variable {e : Embedding} {s : ParseState}

/-! ### Loops -/

/-- The lists agree as long as both streams have rounds left for all tokens. -/
theorem itemsUntil_carries {α : Type} {R : ParseState → α → α → Prop} [e.bond.Fact R]
    (close : TokenKind) {item item' : Parser α} (hitem : ∀ s, Carries e .body α s R item item')
    (fuel fuel' : Nat) {done done' : Array α} (hdone : Each R s done.toList done'.toList)
    (hfuel : s.rest.length < fuel) (hfuel' : s.rest.length < fuel') :
    Carries e .body (List α) s (Each R) (itemsUntil close item fuel done)
      (itemsUntil close item' fuel' done') := by
  induction fuel generalizing fuel' done done' s with
  | zero => exact absurd hfuel (Nat.not_lt_zero _)
  | succ fuel ih =>
    cases fuel' with
    | zero => exact absurd hfuel' (Nat.not_lt_zero _)
    | succ fuel' =>
      unfold itemsUntil
      refine carries_isAt ?_
      refine carries_isAt ?_
      split
      · exact carries_pure hdone
      · apply Carries.bind (hitem s)
        intro x x' s1 hadv hx
        have hlen := hadv.length_le
        have hpushed := (e.later hadv hdone).push hx
        refine carries_eat (fun hcomma => ?_) (carries_pure hpushed)
        have hnext := s1.length_next (rest_ne_nil (c := e.inner) (by simp [hcomma]))
        have hpushed1 := e.later (.next s1) hpushed
        exact ih fuel' hpushed1 (by omega) (by omega)

/-- Statements agree as well: a round that takes no token drops one in both. -/
theorem stmtsUntil_carries {n : Nat} {stmt stmt' : Parser Built}
    (hstmt : e.bond.Makes (Carries e .body) (.stmt n) stmt stmt') (fuel fuel' : Nat)
    {done done' : Array NodeId} (hdone : Each (e.bond.Id (.stmt n)) s done.toList done'.toList)
    (hfuel : s.rest.length < fuel) (hfuel' : s.rest.length < fuel') :
    Carries e .body (List NodeId) s (Each (e.bond.Id (.stmt n))) (stmtsUntil stmt fuel done)
      (stmtsUntil stmt' fuel' done') := by
  induction fuel generalizing fuel' done done' s with
  | zero => exact absurd hfuel (Nat.not_lt_zero _)
  | succ fuel ih =>
    cases fuel' with
    | zero => exact absurd hfuel' (Nat.not_lt_zero _)
    | succ fuel' =>
      unfold stmtsUntil
      refine carries_isAt ?_
      refine carries_isAt ?_
      split
      · exact carries_pure hdone
      · next hend =>
        have hrest : s.rest ≠ [] := by
          intro hnil
          simp [front, hnil] at hend
        refine carries_eat (fun _ => ?_) ?_
        · have hnext := s.length_next hrest
          exact ih fuel' hdone (by omega) (by omega)
        · refine carries_consumed ?_
          apply Carries.bind (hstmt s)
          intro x x' s1 hadv hx
          have hlen := hadv.length_le
          have hcount := hadv.consumed
          refine carries_consumed ?_
          -- a round without a token drops the one in its way
          by_cases hsame : s1.consumed = s.consumed
          · have hsame' : e.taken + s1.consumed = e.taken + s.consumed := by rw [hsame]
            rw [if_pos hsame, if_pos hsame']
            refine carries_advance ?_
            have hnext := s1.length_next (List.length_pos_iff.mp (by
              have := List.length_pos_iff.mpr hrest
              omega))
            exact ih fuel' hdone (by omega) (by omega)
          · have hsame' : ¬e.taken + s1.consumed = e.taken + s.consumed := by omega
            rw [if_neg hsame, if_neg hsame']
            exact ih fuel' (hdone.push hx.id) (by omega) (by omega)

/-- Whether a struct body follows is seen before the brace that closes the
body around it. -/
theorem opensStructBody_append {ts more : List Token} {t : Token} (hlast : ts.getLast? = some t)
    (ht : t.kind = .punct .rbrace) : opensStructBody (ts ++ more) = opensStructBody ts := by
  rcases ts with _ | ⟨a, _ | ⟨b, _ | ⟨c, ts⟩⟩⟩
  · cases hlast
  · cases hlast
    have ha : a.kind = .punct .rbrace := ht
    simp [opensStructBody, ha]
  · cases hlast
    have hb : b.kind = .punct .rbrace := ht
    simp only [opensStructBody, List.map_cons, List.cons_append, hb]
    split <;> simp_all
  · simp only [opensStructBody, List.map_cons, List.cons_append]
    split <;> split <;> simp_all

/-- Inside a body, every reader does the same in the longer stream. -/
theorem Embedding.kept (e : Embedding) : e.bond.Kept (Carries e .body) where
  toSteps := e.steps
  isAtStructBody {s} := by
    have hrun (c : ParseSettings) (s : ParseState) :
        isAtStructBody c s = .ok (opensStructBody s.rest, s) :=
      run_of_post (post_isAtStructBody.mpr rfl)
    rw [← bind_pure isAtStructBody]
    refine Carries.step (hrun _ _) (.refl s) (fun hopen => ?_) (carries_pure rfl)
    obtain ⟨t, hlast, ht⟩ := hopen
    have hsame : opensStructBody (e.place s).rest = opensStructBody s.rest :=
      opensStructBody_append hlast ht
    rw [hrun, hsame]
  commaList close hitem :=
    carries_rounds fun fuel fuel' hfuel hfuel' =>
      itemsUntil_carries close hitem fuel fuel' .nil hfuel hfuel'
  stmts hstmt :=
    carries_rounds fun fuel fuel' hfuel hfuel' =>
      stmtsUntil_carries hstmt fuel fuel' .nil hfuel hfuel'

/-! ### Items -/

/-- A block ends with its brace, and inside of it all readers agree. -/
theorem block_closes (depth : Nat) (s : ParseState) :
    Carries e .closing Built s (e.bond.Node (.block depth)) (block depth) (block depth) := by
  cases depth with
  | zero => exact fun _ => post_tooDeep.mpr trivial
  | succ depth =>
    obtain ⟨hblock, hconditional⟩ := kept_block_and_conditional e.kept (n := depth) rfl
    unfold block braced
    apply Carries.bind (e.kept.keeps_expect _)
    intro start start' s1 _ hstart
    rw [← bind_assoc, ← bind_assoc]
    apply Carries.bind (e.kept.stmts (kept_stmt e.kept rfl hblock hconditional))
    intro stmts stmts' s2 _ hstmts
    apply expect_rbrace_carries.build
    intro close close' s3 _ hclose
    exact ⟨.block hstmts, e.bond.place_to hstart hclose⟩

/-- A function ends with the brace of its body. -/
theorem function_closes (depth : Nat) (isPublic : Bool) (start : Span) (s : ParseState) :
    Carries e .closing Built s (e.bond.Node (.item depth)) (function depth isPublic start)
      (function depth isPublic start) := by
  unfold function
  apply Carries.bind (e.kept.keeps_expect _)
  intro _ _ s1 _ _
  apply Carries.bind e.kept.keeps_expectIdent
  intro name name' s2 _ hname
  apply Carries.bind (e.kept.keeps_expect _)
  intro _ _ s3 _ _
  apply Carries.bind (e.kept.commaList _ (kept_param e.kept rfl))
  intro params params' s4 _ hparams
  apply Carries.bind (e.kept.keeps_expect _)
  intro _ _ s5 hadv5 _
  apply Carries.bind (e.kept.keeps_after _ (kept_type e.kept rfl))
  intro ret ret' s6 hadv6 hret
  rw [← hname.word.1]
  apply (block_closes depth s6).build
  intro body body' s7 hadv7 hbody
  have hparams7 := e.later (hadv5.trans (hadv6.trans hadv7)) hparams
  have hret7 := e.later hadv7 hret
  exact ⟨.function isPublic trivial (Bond.ids_of_each hparams7) (Bond.id_of_maybe hret7) hbody.id,
    e.bond.place_to rfl hbody.place⟩

/-- A struct ends with the brace behind its fields. -/
theorem struct_closes (depth : Nat) (start : Span) (s : ParseState) :
    Carries e .closing Built s (e.bond.Node (.item depth)) (struct depth start)
      (struct depth start) := by
  unfold struct
  apply Carries.bind (e.kept.keeps_expect _)
  intro _ _ s1 _ _
  apply Carries.bind e.kept.keeps_expectIdent
  intro name name' s2 _ hname
  apply Carries.bind (e.kept.keeps_expect _)
  intro _ _ s3 _ _
  apply Carries.bind (e.kept.commaList _ (kept_structField e.kept rfl))
  intro fields fields' s4 _ hfields
  rw [← hname.word.1]
  apply expect_rbrace_carries.build
  intro close close' s5 hadv5 hclose
  have hfields5 := e.later hadv5 hfields
  exact ⟨.struct trivial (Bond.ids_of_each hfields5), e.bond.place_to rfl hclose⟩

/-- Functions and structs look at nothing behind their last brace. -/
theorem item_closes (depth : Nat) (s : ParseState) :
    Carries e .closing Built s (e.bond.Node (.item depth)) (item depth) (item depth) := by
  have hcurrent (s : ParseState) : Carries e .body Token s Same current current := by
    rw [← bind_pure current]
    exact carries_current (carries_pure rfl)
  have hisAt (k : TokenKind) (s : ParseState) : Carries e .body Bool s Same (isAt k) (isAt k) := by
    rw [← bind_pure (isAt k)]
    exact carries_isAt (carries_pure rfl)
  unfold item
  apply Carries.bind (hcurrent s)
  rintro t _ s1 _ rfl
  apply Carries.bind (e.kept.keeps_eat _)
  rintro isPublic _ s2 _ rfl
  apply Carries.bind (hisAt _ s2)
  rintro isStruct _ s3 _ rfl
  split
  · exact struct_closes depth _ s3
  · exact function_closes depth isPublic _ s3

/-! ### Imports -/

/-- Behind a quiet part stands neither a separator of paths nor a semicolon. -/
theorem Embedding.Quiet.front_ne (h : e.Quiet) (hrest : s.rest = []) :
    (front e.outer (e.place s)).kind ≠ .punct .colonColon ∧
      (front e.outer (e.place s)).kind ≠ .punct .dot ∧
      (front e.outer (e.place s)).kind ≠ .punct .semicolon := by
  have hplace : (e.place s).rest = e.more := by simp [Embedding.place, hrest]
  cases hmore : e.more with
  | nil => simp [front, hplace, hmore]
  | cons t ts =>
    rw [front_of_rest (hplace.trans hmore)]
    exact h t (by rw [hmore]; rfl)

theorem carries_eat_path {β : Type} {S : ParseState → β → β → Prop} {q q' : Bool → Parser β}
    {k : TokenKind} (hk : k ≠ .eof)
    (hquiet : e.Quiet → s.rest = [] → (front e.outer (e.place s)).kind ≠ k)
    (htrue : s.rest ≠ [] → Carries e .path β s.next S (q true) (q' true))
    (hfalse : Carries e .path β s S (q false) (q' false)) :
    Carries e .path β s S (eat k >>= q) (eat k >>= q') := by
  have hmore (hfront : (front e.inner s).kind = k) : s.rest ≠ [] :=
    rest_ne_nil (by rw [hfront]; exact hk)
  refine carries_eat_of (fun hfront => htrue (hmore hfront)) hfalse fun hopen hrest => ?_
  exact ⟨fun hfront => hmore hfront hrest, hquiet (hopen.resolve_left (absurd hrest)) hrest⟩

/-- A path stops before the tokens behind it, as they continue none. -/
theorem pathTail_carries (fuel fuel' : Nat) (path : Array Symbol) (last : Span)
    (hfuel : s.rest.length < fuel) (hfuel' : s.rest.length < fuel') :
    Carries e .path _ s Same (pathTail fuel path last) (pathTail fuel' path last) := by
  induction fuel generalizing fuel' path last s with
  | zero => exact absurd hfuel (Nat.not_lt_zero _)
  | succ fuel ih =>
    cases fuel' with
    | zero => exact absurd hfuel' (Nat.not_lt_zero _)
    | succ fuel' =>
      have hname (hrest : s.rest ≠ []) : Carries e .path _ s.next Same
          (expectIdent >>= fun name => pathTail fuel (path.push name.1) name.2)
          (expectIdent >>= fun name => pathTail fuel' (path.push name.1) name.2) := by
        apply carries_expectIdent
        intro name _
        have hnext := s.length_next hrest
        have hle := (ParseState.Advanced.next s.next).length_le
        exact ih fuel' _ _ (by omega) (by omega)
      unfold pathTail eatSeparator
      rw [bind_assoc, bind_assoc]
      refine carries_eat_path (by simp) (fun hquiet hrest => (hquiet.front_ne hrest).1) hname ?_
      refine carries_eat_path (by simp) (fun hquiet hrest => (hquiet.front_ne hrest).2.1) hname ?_
      intro _
      rw [if_neg Bool.false_ne_true, if_neg Bool.false_ne_true, post_pure]
      exact ⟨.refl s, trivial, _, rfl, fun _ _ => rfl⟩

/-- What a reader of names took last, if it took anything, is a name. -/
def EndsInName (s s' : ParseState) : Prop :=
  ∃ t sym, t.kind = .ident sym ∧ t :: s'.rest <:+ s.rest

/-- A path is empty or ends with a name. -/
theorem pathTail_ends {c : ParseSettings} (hmode : c.mode = .strict) (fuel : Nat)
    (path : Array Symbol) (last : Span) (s : ParseState) :
    (pathTail fuel path last).Post c s (fun _ s' => s' = s ∨ EndsInName s s') fun _ => True := by
  induction fuel generalizing path last s with
  | zero => exact .inl rfl
  | succ fuel ih =>
    have hname : (expectIdent >>= fun name => pathTail fuel (path.push name.1) name.2).Post c
        s.next (fun _ s' => s' = s ∨ EndsInName s s') fun _ => True := by
      rw [post_bind, post_expectIdent]
      refine ⟨fun sym hsym => ?_, fun _ => by rw [post_fault_strict hmode]; trivial⟩
      have hrest := rest_eq_front (c := c) (s := s.next) (by simp [hsym])
      have hsuffix := (ParseState.Advanced.next s).rest
      rw [hrest] at hsuffix
      apply (ih _ _ s.next.next).imp
      rintro r s' (rfl | ⟨t, sym', ht, hmore⟩)
      · exact .inr ⟨_, sym, hsym, hsuffix⟩
      · exact .inr ⟨t, sym', ht, hmore.trans ((List.suffix_cons _ _).trans hsuffix)⟩
    unfold pathTail eatSeparator
    rw [bind_assoc, post_bind, post_eat]
    split
    · exact hname
    · rw [post_bind, if_neg Bool.false_ne_true, post_eat]
      split
      · exact hname
      · exact .inl rfl

/-- The end of an import, at tokens that tell whether a semicolon follows. -/
theorem importEnd_carries {start last : Span} {path : List Symbol} {n : Nat}
    (h : s.rest ≠ [] ∨ e.Quiet) :
    Carries e .importEnd Built s (e.bond.Node (.item n))
      (do
        let t ← current
        let close ← if ← eat (.punct .semicolon) then pure t.span else pure last
        build (.importPath path) (start.to close))
      (do
        let t ← current
        let close ← if ← eat (.punct .semicolon) then pure t.span else pure last
        build (.importPath path) (start.to close)) := by
  intro _
  have hform (s : ParseState) :
      e.bond.Forms s (.item n) (.importPath path) (.importPath path) :=
    .importPath fun _ _ => trivial
  rw [post_bind, post_current, post_bind, post_eat]
  split
  · next hfront =>
    have hrest : s.rest ≠ [] := rest_ne_nil (c := e.inner) (by simp [hfront])
    have hplace := e.front_place hrest
    rw [if_pos rfl, pure_bind, post_build]
    refine ⟨fun _ _ => trivial, fun hfits => ?_⟩
    obtain ⟨b', hb', hbuild⟩ := build_place (hform _) rfl hfits
    refine ⟨.trans (.next s) (.grow _ _), h, b', hb', fun _ hroom => run_of_post ?_⟩
    rw [post_bind, post_current, post_bind, post_eat, hplace, if_pos hfront, e.place_next hrest,
      if_pos rfl, pure_bind]
    dsimp only [Post]
    rw [hbuild hroom]
  · next hfront =>
    rw [if_neg Bool.false_ne_true, pure_bind, post_build]
    refine ⟨fun _ _ => trivial, fun hfits => ?_⟩
    obtain ⟨b', hb', hbuild⟩ := build_place (hform _) rfl hfits
    refine ⟨.grow s _, h, b', hb', fun _ hroom => run_of_post ?_⟩
    have hother : (front e.outer (e.place s)).kind ≠ .punct .semicolon := by
      by_cases hrest : s.rest = []
      · exact ((h.resolve_left (absurd hrest)).front_ne hrest).2.2
      · rw [e.front_place hrest]
        exact hfront
    rw [post_bind, post_current, post_bind, post_eat, if_neg hother, if_neg Bool.false_ne_true,
      pure_bind]
    dsimp only [Post]
    rw [hbuild hroom]

/-- An import ends with a semicolon, or something else must follow that cannot
be taken for a part of it. -/
theorem importPath_carries {n : Nat} (hrest : s.rest ≠ [])
    (h : e.Quiet ∨ ∃ t, s.rest.getLast? = some t ∧ t.kind = .punct .semicolon) :
    Carries e .importEnd Built s (e.bond.Node (.item n)) importPath importPath := by
  have hcurrent : current e.outer (e.place s) = .ok (front e.inner s, e.place s) := by
    rw [run_current, e.front_place hrest]
  have hadvance : advance e.outer (e.place s) = .ok ((), e.place s.next) := by
    rw [run_advance, e.place_next hrest]
  unfold importPath
  refine Carries.step (run_current _ _) (.refl s) (fun _ => hcurrent) ?_
  refine Carries.step (run_advance _ _) (.next s) (fun _ => hadvance) ?_
  apply carries_expectIdent
  intro first hfirst
  apply carries_rounds
  intro fuel fuel' hfuel hfuel'
  apply Carries.bind_post (pathTail_carries fuel fuel' _ _ hfuel hfuel')
    (pathTail_ends e.strict fuel _ _ _)
  rintro ⟨path, last⟩ _ s1 hadv rfl hends
  apply importEnd_carries
  rcases h with hquiet | ⟨t, hlast, ht⟩
  · exact .inr hquiet
  · -- the last token is no name, so the path stopped before it
    refine .inl fun hnil => ?_
    have hsuffix : s.next.rest <:+ s.rest := (ParseState.Advanced.next s).rest
    have hname : EndsInName s s1 := by
      rw [rest_eq_front (c := e.inner) (s := s.next) (by rw [hfirst]; nofun)] at hsuffix
      rcases hends with rfl | ⟨u, sym, hu, hmore⟩
      · exact ⟨_, first, hfirst, hsuffix⟩
      · exact ⟨u, sym, hu, hmore.trans ((List.suffix_cons _ _).trans hsuffix)⟩
    obtain ⟨u, sym, hu, hend⟩ := hname
    rw [hnil] at hend
    have hlast' : s.rest.getLast? = some u := getLast?_of_suffix hend rfl
    rw [hlast'] at hlast
    cases hlast
    rw [hu] at ht
    cases ht

end StagedCompiler.Parser
