import StagedCompiler.Proofs.Parser.EveryReader
import StagedCompiler.Proofs.Parser.Running

/-!
Single runs, for which the points of a bond are the states. If the steps that
change a state keep an invariant and go forward, then all readers do so, and
what is known of their results holds in the state that they leave.
-/

namespace StagedCompiler.Parser.Bond

/-- The reader keeps the invariant and goes forward, and `R` holds of what it
gives. -/
def Leads (bond : Bond ParseState) (c : ParseSettings) (Inv : ParseState → Prop) (α : Type)
    (s : ParseState) (R : ParseState → α → α → Prop) (p _ : Parser α) : Prop :=
  Inv s → p.Post c s (fun a s' => (Inv s' ∧ bond.le s s') ∧ ∃ a', R s' a a') fun _ => True

structure Steady (bond : Bond ParseState) (c : ParseSettings) (Inv : ParseState → Prop) :
    Prop where
  place (a : Span) : bond.place a a
  level (depth : Nat) : bond.level depth depth
  top : bond.top c.maxDepth
  front {s : ParseState} : Inv s → bond.known (front c s).kind
  skip {s : ParseState} (n : Nat) : Inv s → Inv (s.skip n) ∧ bond.le s (s.skip n)
  report {s : ParseState} (f : ParseFault) (span : Span) : Inv s →
    Inv (s.report ⟨.parse, f.message, some span⟩) ∧
      bond.le s (s.report ⟨.parse, f.message, some span⟩)
  missing {s : ParseState} (f : ParseFault) (span : Span) (s' : ParseState) : Inv s →
    s' = { s.report ⟨.parse, f.message, some span⟩ with
      names := (s.names.intern missingName).2 } →
    (Inv s' ∧ bond.le s s') ∧ bond.name s' (s.names.intern missingName).1
  build {s : ParseState} {k : Part} {kind kind' : NodeKind Symbol NodeId} (span : Span) :
    Inv s → bond.Forms s k kind kind' → s.arena.refusal? kind = none →
    (Inv (s.grow ⟨kind, span⟩) ∧ bond.le s (s.grow ⟨kind, span⟩)) ∧
      bond.id (s.grow ⟨kind, span⟩) k s.arena.size s.arena.size

section

variable {bond : Bond ParseState} {c : ParseSettings} {Inv : ParseState → Prop}

/-- The front token is one of those that can be skipped, if there is one. -/
theorem Steady.next (h : bond.Steady c Inv) {s : ParseState} (hs : Inv s) :
    Inv s.next ∧ bond.le s s.next := by
  unfold ParseState.next
  split
  · exact ⟨hs, bond.refl s⟩
  · next hrest =>
    have hskip := h.skip 1 hs
    rw [ParseState.skip, hrest] at hskip
    exact hskip

/-- What the steps keep is kept by every reader. -/
theorem Steady.stepwise (h : bond.Steady c Inv) : bond.Stepwise (bond.Leads c Inv) where
  pure ha hs := ⟨⟨hs, bond.refl _⟩, _, ha⟩
  bind hp hf hs := by
    rw [post_bind]
    refine (hp hs).imp fun a s1 ⟨⟨hs1, hle1⟩, a', ha⟩ => ?_
    refine (hf a a' s1 hle1 ha hs1).imp fun b s2 ⟨⟨hs2, hle2⟩, hb⟩ => ?_
    exact ⟨⟨hs2, bond.trans hle1 hle2⟩, hb⟩
  current hf hs := hf _ _ _ (h.front hs) (h.place _) hs
  peek _ hf hs := hf _ _ default hs
  resolve _ hf hs := hf _ hs
  consumed hf hs := hf _ hs
  rounds hf hs := hf _ hs
  advance hs := by
    rw [post_advance]
    exact ⟨h.next hs, (), rfl⟩
  advanceWhile _ hs := ⟨h.skip _ hs, (), rfl⟩
  fault f _ _ _ hs := by
    rw [post_fault]
    exact ⟨fun _ => trivial, fun _ => ⟨h.report f _ hs, (), rfl⟩⟩
  missing f _ _ _ hs := by
    rw [post_bind, post_fault]
    refine ⟨fun _ => trivial, fun _ => ?_⟩
    obtain ⟨hnext, hname⟩ := h.missing f _ _ hs rfl
    exact ⟨hnext, _, rfl, hname⟩
  build {s _ kind _ span _} hform _ hs := by
    rw [post_build]
    refine ⟨fun _ _ => trivial, fun hfits => ?_⟩
    obtain ⟨hnext, hid⟩ := h.build span hs hform hfits
    exact ⟨hnext, ⟨s.arena.size, kind, span⟩, hid, h.place _, rfl⟩
  tooDeep _ _ := trivial
  withMaxDepth hf hs := hf _ _ (h.level c.maxDepth) h.top hs

theorem Steady.program (h : bond.Steady c Inv) {s : ParseState} (hs : Inv s) :
    program.Post c s (fun b s' => (Inv s' ∧ bond.le s s') ∧ ∃ b', bond.Node .program s' b b')
      fun _ => True :=
  kept_program h.stepwise s hs

end

end StagedCompiler.Parser.Bond
