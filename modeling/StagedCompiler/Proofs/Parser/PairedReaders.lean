import StagedCompiler.Proofs.Parser.EveryReader
import StagedCompiler.Proofs.Parser.PairedRuns

/-!
Every reader, run side by side with itself, up to whole programs and the units
they give.
-/

namespace StagedCompiler

namespace Leeway

def bond (w : Leeway) : Parser.Bond Unit where
  le _ _ := True
  refl _ := trivial
  trans _ _ := trivial
  place := w.places
  place_to := w.places_to
  known _ := True
  name _ _ := True
  name_of_known _ := trivial
  name_later _ _ := trivial
  id _ _ i i' := i = i'
  id_later _ h := h
  id_sub _ h := h
  level := w.Limit
  even := w.even
  level_zero h heven := (h.eq heven).symm
  level_succ {d d'} h := by
    cases d' with
    | zero => exact absurd h.le (Nat.not_succ_le_zero d)
    | succ d' =>
      exact ⟨d', rfl, Nat.le_of_succ_le_succ h.le, fun heven => Nat.succ.inj (h.eq heven)⟩
  top _ := True
  free := False
  place_self h := h.elim
  name_self h := h.elim
  id_self h := h.elim

section

variable {w : Leeway} {u : Unit} {k : Parser.Part}

theorem ids_eq {is is' : List NodeId} (h : List.Forall₂ (w.bond.id u k) is is') : is = is' := by
  induction h with
  | nil => rfl
  | cons hi _ ih => rw [show _ = _ from hi, ih]

theorem id?_eq {i i' : Option NodeId} (h : Option.Rel (w.bond.id u k) i i') : i = i' := by
  cases h with
  | none => rfl
  | some hi => rw [show _ = _ from hi]

/-- Only the fields of struct literals show that the places differ. -/
theorem kindPair_of_forms {kind kind' : NodeKind Symbol NodeId}
    (h : w.bond.Forms u k kind kind') : w.KindPair kind kind' := by
  cases h with
  | structLit _ hfields =>
    exact .structLit _ (hfields.imp fun _ _ h => ⟨h.word.1, h.value, h.place⟩)
  | array _ hi | ref _ hi | unary _ hi | inner hi | outer hi | fieldAccess hi _ | exprStmt hi
  | param _ _ hi | field _ hi =>
    cases hi
    exact .same _
  | index hi hj | link _ hi hj | assign _ hi hj | whileStmt hi hj | forStmt _ hi hj =>
    cases hi
    cases hj
    exact .same _
  | arrayLit his | block his | struct _ his | program _ his =>
    cases ids_eq his
    exact .same _
  | call hi his =>
    cases hi
    cases ids_eq his
    exact .same _
  | letStmt _ _ hty hinit =>
    cases id?_eq hty
    cases id?_eq hinit
    exact .same _
  | returnStmt hvalue =>
    cases id?_eq hvalue
    exact .same _
  | ifStmt hcond hyes hno =>
    cases hcond
    cases hyes
    cases id?_eq hno
    exact .same _
  | function _ _ hparams hret hbody =>
    cases ids_eq hparams
    cases id?_eq hret
    cases hbody
    exact .same _
  | prim | named | literal | zero | ident | breakStmt | continueStmt | importPath => exact .same _

/-- The steps go on side by side, so all readers do. -/
theorem stepwise (w : Leeway) :
    w.bond.Stepwise fun _ _ R p p' => Parser.Paired w (R ()) p p' where
  pure h := Parser.paired_pure h
  bind hp hf := hp.bind fun a a' h => hf a a' () trivial h
  current hf := Parser.Paired.current fun kind span span' h => hf kind span span' trivial h
  peek n hf := by
    apply (Parser.paired_peek n).bind
    rintro ⟨kind, span⟩ ⟨kind', span'⟩ ⟨hkind, hspan⟩
    cases hkind
    exact hf kind span span'
  resolve sym hf := (Parser.paired_resolve sym).bind_eq hf
  consumed hf := Parser.paired_consumed.bind_eq hf
  rounds hf := Parser.paired_rounds.bind_eq hf
  advance hc hs := Parser.paired_advance hc hs
  advanceWhile skip := Parser.paired_advanceWhile skip
  fault f _ _ h := Parser.paired_fault f h
  missing f _ _ h := (Parser.paired_fault f h).bind_eq fun _ =>
    (Parser.paired_intern _).imp fun _ _ h => ⟨h, trivial⟩
  build hkind hspan := (Parser.paired_build (kindPair_of_forms hkind) hspan).imp
    fun _ _ h => ⟨h.id, h.node.span, h.node.kind.isPlace⟩
  tooDeep h := Parser.paired_tooDeep h
  withMaxDepth hf := Parser.paired_withMaxDepth fun depth depth' h => hf depth depth' h trivial

end

end Leeway

namespace Leeway

variable {w : Leeway} {lexed lexed' : Lexed} {opts opts' : Options}

structure UnitPair (w : Leeway) (parsed parsed' : Parsed) : Prop where
  arena : w.ArenaPair parsed.ast.arena parsed'.ast.arena
  names : parsed.ast.names = parsed'.ast.names
  root : parsed.ast.root = parsed'.ast.root
  diagnostics : w.DiagnosticsPair parsed.diagnostics parsed'.diagnostics

/-- Two streams are read to units that correspond, or the first is refused. -/
theorem readProgram_pair
    (hc : w.SettingsPair (.ofStream lexed opts) (.ofStream lexed' opts'))
    (hs : w.StatePair (.ofStream lexed opts) (.ofStream lexed' opts')) :
    (∃ parsed parsed', readProgram lexed opts = .ok parsed ∧
        readProgram lexed' opts' = .ok parsed' ∧ w.UnitPair parsed parsed') ∨
      ∃ ds, readProgram lexed opts = .error ds ∧
        (w.even → ∃ ds', readProgram lexed' opts' = .error ds' ∧ w.DiagnosticsPair ds ds') := by
  have hrun := Parser.kept_program w.stepwise () hc hs
  rw [readProgram_eq, readProgram_eq]
  generalize Parser.program (.ofStream lexed opts) (.ofStream lexed opts) = r at hrun ⊢
  generalize Parser.program (.ofStream lexed' opts') (.ofStream lexed' opts') = r' at hrun ⊢
  cases hrun with
  | ok hroot hs => exact .inl ⟨_, _, rfl, rfl, hs.arena, hs.names, hroot.id, hs.diagnostics⟩
  | failed hds =>
    refine .inr ⟨_, rfl, ?_⟩
    intro heven
    obtain ⟨ds', rfl, hpair⟩ := hds heven
    exact ⟨ds', rfl, hpair⟩

end Leeway

end StagedCompiler
