import StagedCompiler.Proofs.Lexer.SourceTokens
import StagedCompiler.Proofs.Tree.AssemblingReaders

/-!
Units are well sorted, whether they were read with faults or without. The
readers put the right nodes into the right places; that numbers are small is
the work of the lexer, whose tokens they take the numbers from.
-/

namespace StagedCompiler

section

variable {src : String} {opts : Options} {parsed : Parsed} {id : NodeId} {n : Node}

theorem parsed_in_order (h : parseSource src opts = .ok parsed)
    (hn : parsed.ast.arena.nodes[id]? = some n) :
    n.kind.WellSorted parsed.ast.arena.Is ∧
      n.kind.Valued (fun v => 0 ≤ v ∧ v < 0x8000000000000000) parsed.ast.names.resolve ∧
      (opts.mode = .strict → n.kind.TargetsPlace parsed.ast.arena.Is) := by
  obtain ⟨lexed, hlex, hread⟩ := lexed_of_parseSource h
  obtain ⟨s, root, dropped, hs, -, -, rfl⟩ := readProgram_history hread
  have horder := hs.in_order id n hn
  refine ⟨horder.sorted, horder.valued.imp ?_ fun _ hname => hname, horder.target⟩
  rintro v (rfl | ⟨t, ht, hv⟩)
  · decide
  · exact lex_int hlex ht hv

/-- Every node of a unit is well sorted, its numbers are small, its paths have
names, and a type that has a name of its own is not called like a primitive
one. In a unit without faults only places are assigned to. -/
theorem parsed_well_sorted (h : parseSource src opts = .ok parsed)
    (hn : parsed.ast.arena.nodes[id]? = some n) :
    n.kind.WellSorted parsed.ast.arena.Is ∧
      n.kind.Valued (fun v => 0 ≤ v ∧ v < 0x8000000000000000) parsed.ast.names.resolve ∧
      (parsed.diagnostics = #[] → n.kind.TargetsPlace parsed.ast.arena.Is) := by
  obtain ⟨hsorted, hvalued, hstrict⟩ := parsed_in_order h hn
  refine ⟨hsorted, hvalued, fun hclean => ?_⟩
  cases hmode : opts.mode with
  | strict => exact hstrict hmode
  | lenient =>
    -- Without faults the strict mode gives the same unit.
    have hopts : opts.inMode .lenient = opts := by rw [← hmode]; rfl
    have hsame : parseSource src (opts.inMode .strict) = .ok parsed := by
      rw [parseSource_strict_ok_iff, hopts]
      exact ⟨h, hclean⟩
    exact (parsed_in_order hsame hn).2.2 rfl

/-- An assignment, the third node of its unit. -/
theorem parsed_well_sorted_assignment :
    ∃ parsed n, parseSource "fn f()\x7ba = 1;\x7d" {} = .ok parsed ∧ parsed.diagnostics = #[] ∧
      parsed.ast.arena.nodes[2]? = some n ∧ n.kind = .assign 0 .assign 1 ∧
      parsed.ast.arena.Is NodeKind.isExpr 1 ∧ parsed.ast.arena.Is NodeKind.isPlace 0 := by
  obtain ⟨parsed, hparsed⟩ :=
    exists_of_isOk (show (parseSource "fn f()\x7ba = 1;\x7d" {}).isOk by decide +kernel)
  have hclean : reported Parsed.diagnostics (parseSource "fn f()\x7ba = 1;\x7d" {}) = #[] := by
    decide +kernel
  have hnode : ((parseSource "fn f()\x7ba = 1;\x7d" {}).toOption.bind
      fun parsed => parsed.ast.arena.nodes[2]?.map (·.kind)) = some (.assign 0 .assign 1) := by
    decide +kernel
  rw [hparsed] at hclean hnode
  obtain ⟨n, hn, hkind⟩ := Option.map_eq_some_iff.mp hnode
  obtain ⟨hsorted, -, hplace⟩ := parsed_well_sorted hparsed hn
  have hplace := hplace hclean
  rw [hkind] at hsorted hplace
  exact ⟨parsed, n, hparsed, hclean, hn, hkind, hsorted.2, hplace⟩

end

end StagedCompiler
