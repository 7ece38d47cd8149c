import Mathlib.Algebra.GroupWithZero.Nat
import StagedCompiler.Proofs.Tree.AssemblingReaders
import StagedCompiler.Proofs.Tree.OutlineLines
import StagedCompiler.Proofs.Tree.ValuesKept

/-!
Which nodes of a unit stand below its root. All do but the statements that
blocks have dropped, each with the zero it was made of: a history keeps every
other node below one that still waits to be used, and at the end only the root
waits. In strict mode nothing is dropped, so a unit without faults is a single
tree and its outline has a line for each node of the arena.
-/

namespace StagedCompiler

theorem Arena.Below.append {a : Arena} {top id : NodeId} {n : Node} (h : a.Below top id) :
    (a.append n).Below top id := by
  induction h with
  | self => exact .self
  | child _ hm hchild ih => exact ih.child (node_append_old hm) hchild

theorem Arena.held_of_below {a : Arena} {top id : NodeId}
    (h : a.Below top id) (hne : id ≠ top) : id ∈ a.held := by
  cases h with
  | self => exact absurd rfl hne
  | child _ hn hchild =>
    have hmem := Array.mem_toList_iff.mpr (Array.mem_of_getElem? hn)
    exact List.mem_flatMap.mpr ⟨_, hmem, hchild⟩

/-- The two nodes of a dropped statement. -/
def Arena.LeftBehind (a : Arena) (b : Built) : Prop :=
  ∃ inner span, b.id = inner + 1 ∧ b.node.kind = .exprStmt inner ∧
    a.nodes[inner]? = some ⟨.int 0, span⟩ ∧ a.nodes[b.id]? = some b.node

namespace History

variable {c : ParseSettings} {tokens : List Token} {s : ParseState} {loose dropped : List Built}

/-- What blocks have dropped stays where it was built. -/
theorem dropped_left_behind (h : History c tokens s loose dropped) :
    ∀ b ∈ dropped, s.arena.LeftBehind b := by
  have hgrow (a : Arena) (n : Node) (b : Built) (hb : a.LeftBehind b) :
      (a.append n).LeftBehind b := by
    obtain ⟨inner, span, hid, hkind, hzero, hnode⟩ := hb
    exact ⟨inner, span, hid, hkind, Arena.node_append_old hzero, Arena.node_append_old hnode⟩
  induction h with
  | start _ _ => simp
  | move _ hmoved ih =>
    rw [hmoved.arena]
    exact ih
  | node _ _ _ ih => exact fun b hb => hgrow _ _ b (ih b hb)
  | @drop s s' b loose dropped depth _ hdrops ih =>
    obtain ⟨span, span', hb, harena⟩ := hdrops.idle.arena
    rw [harena]
    intro other hother
    rcases List.mem_cons.mp hother with rfl | hother
    · have hzero : (s.arena.append ⟨.int 0, span⟩).nodes[s.arena.size]? = some ⟨.int 0, span⟩ :=
        Arena.node_append_new
      have hsize := s.arena.size_append ⟨.int 0, span⟩
      refine ⟨s.arena.size, span, by rw [hb], by rw [hb], Arena.node_append_old hzero, ?_⟩
      rw [hb, ← hsize]
      exact Arena.node_append_new
    · exact hgrow _ _ _ (hgrow _ _ _ (ih other hother))

/-- Every node stands below one that waits, or was dropped. -/
theorem covered (h : History c tokens s loose dropped) :
    ∀ id < s.arena.size, (∃ b ∈ loose, s.arena.Below b.id id) ∨
      ∃ b ∈ dropped, id = b.id ∨ id + 1 = b.id := by
  induction h with
  | start hempty _ =>
    intro id hid
    simp [Arena.size, hempty] at hid
  | move _ hmoved ih =>
    rw [hmoved.arena]
    exact ih
  | @node s made loose dropped kind span _ hformed ih =>
    intro id hid
    rw [ParseState.size_grow] at hid
    rcases Nat.lt_succ_iff_lt_or_eq.mp hid with hold | rfl
    · rcases ih id hold with ⟨b, hb, hbelow⟩ | hdropped
      · left
        rcases List.mem_append.mp hb with hmade | hloose
        · -- The new node holds all that it was made of.
          have hchild : b.id ∈ kind.children := by
            rw [← hformed.children]
            exact List.mem_map_of_mem (List.mem_reverse.mpr hmade)
          have hnew : (s.arena.append ⟨kind, span⟩).Below s.arena.size b.id :=
            Arena.Below.self.child Arena.node_append_new hchild
          exact ⟨⟨s.arena.size, kind, span⟩, List.mem_cons_self, hnew.trans hbelow.append⟩
        · exact ⟨b, List.mem_cons_of_mem _ hloose, hbelow.append⟩
      · exact .inr hdropped
    · exact .inl ⟨⟨s.arena.size, kind, span⟩, List.mem_cons_self, .self⟩
  | @drop s s' b loose dropped depth _ hdrops ih =>
    obtain ⟨span, span', hb, harena⟩ := hdrops.idle.arena
    rw [harena]
    intro id hid
    simp only [Arena.size_append] at hid
    by_cases hold : id < s.arena.size
    · rcases ih id hold with ⟨other, hother, hbelow⟩ | ⟨other, hother, hid⟩
      · exact .inl ⟨other, hother, hbelow.append.append⟩
      · exact .inr ⟨other, List.mem_cons_of_mem _ hother, hid⟩
    · right
      refine ⟨b, List.mem_cons_self, ?_⟩
      rw [hb]
      dsimp only
      omega

/-- A count that a node makes of its own and its children's counts counts all
nodes: those below a node that waits, and two for each dropped statement. -/
theorem count_nodes (h : History c tokens s loose dropped) (count : NodeId → Nat)
    (hcount : ∀ id n, s.arena.nodes[id]? = some n →
      count id = (n.kind.children.map count).sum + 1) :
    (loose.map fun b => count b.id).sum + 2 * dropped.length = s.arena.size := by
  induction h with
  | start hempty _ => simp [Arena.size, hempty]
  | move _ hmoved ih =>
    rw [hmoved.arena] at hcount ⊢
    exact ih hcount
  | @node s made loose dropped kind span _ hformed ih =>
    have hbefore := ih fun id n hn => hcount id n (Arena.node_append_old hn)
    have hnew := hcount s.arena.size ⟨kind, span⟩ Arena.node_append_new
    have hmade : (kind.children.map count).sum = (made.map fun b => count b.id).sum := by
      rw [← hformed.children, List.map_map, List.map_reverse, List.sum_reverse]
      rfl
    rw [List.map_append, List.sum_append] at hbefore
    rw [ParseState.size_grow, List.map_cons, List.sum_cons]
    dsimp only at hnew ⊢
    omega
  | @drop s s' b loose dropped depth _ hdrops ih =>
    obtain ⟨span, span', -, harena⟩ := hdrops.idle.arena
    rw [harena] at hcount ⊢
    have hbefore := ih fun id n hn =>
      hcount id n (Arena.node_append_old (Arena.node_append_old hn))
    rw [List.length_cons, Arena.size_append, Arena.size_append]
    omega

/-- In strict mode nothing is dropped. -/
theorem dropped_eq_nil (h : History c tokens s loose dropped) (hstrict : c.mode = .strict) :
    dropped = [] := by
  induction h with
  | start _ _ => rfl
  | move _ _ ih => exact ih
  | node _ _ _ ih => exact ih
  | drop _ hdrops _ =>
    rw [hdrops.idle.lenient] at hstrict
    cases hstrict

/-- A dropped statement stands below no node that waits. -/
theorem not_below_dropped (h : History c tokens s loose dropped) {top b : Built}
    (htop : top ∈ loose) (hb : b ∈ dropped) : ¬s.arena.Below top.id b.id := by
  intro hbelow
  obtain ⟨-, hloose, hfree⟩ := List.nodup_append.mp h.forest.once
  have hne : top.id ≠ b.id :=
    (List.nodup_append.mp hloose).2.2 _ (List.mem_map_of_mem htop) _ (List.mem_map_of_mem hb)
  have hheld := Arena.held_of_below hbelow hne.symm
  exact hfree _ hheld _ (List.mem_append_right _ (List.mem_map_of_mem hb)) rfl

/-- Nor does its zero, which nothing else holds. -/
theorem not_below_zero (h : History c tokens s loose dropped) {top b : Built} {id : NodeId}
    (htop : top ∈ loose) (hkind : top.node.kind ≠ .int 0) (hb : b ∈ dropped)
    (hid : id + 1 = b.id) : ¬s.arena.Below top.id id := by
  intro hbelow
  obtain ⟨inner, span, hinner, hstmt, hzero, hnode⟩ := h.dropped_left_behind b hb
  cases Nat.succ.inj (hid.trans hinner)
  cases hbelow with
  | self =>
    rw [h.loose_nodes top htop, Option.some_inj] at hzero
    rw [hzero] at hkind
    exact hkind rfl
  | child hparent hn hchild =>
    have hheld : id ∈ b.node.kind.children := by
      rw [hstmt]
      exact List.mem_cons_self
    rw [h.forest.parent_unique hn hchild hnode hheld] at hparent
    exact h.not_below_dropped htop hb hparent

/-- If a single node waits, all nodes stand below it but the dropped ones. -/
theorem not_below_iff {root : Built} (h : History c tokens s [root] dropped)
    (hkind : root.node.kind ≠ .int 0) {id : NodeId} (hid : id < s.arena.size) :
    ¬s.arena.Below root.id id ↔ ∃ b ∈ dropped, id = b.id ∨ id + 1 = b.id := by
  constructor
  · intro hnot
    rcases h.covered id hid with ⟨top, htop, hbelow⟩ | hdropped
    · rw [List.mem_singleton.mp htop] at hbelow
      exact absurd hbelow hnot
    · exact hdropped
  · rintro ⟨b, hb, rfl | hzero⟩
    · exact h.not_below_dropped (List.mem_singleton_self root) hb
    · exact h.not_below_zero (List.mem_singleton_self root) hkind hb hzero

end History

section

variable {src : String} {opts : Options} {parsed : Parsed}

/-- In a unit without faults all nodes stand below the root. -/
theorem below_of_strict (h : parseSource src (opts.inMode .strict) = .ok parsed) {id : NodeId}
    (hid : id < parsed.ast.arena.size) : parsed.ast.arena.Below parsed.ast.root id := by
  obtain ⟨lexed, -, hread⟩ := lexed_of_parseSource h
  obtain ⟨s, root, dropped, hs, -, -, rfl⟩ := readProgram_history hread
  cases hs.dropped_eq_nil rfl
  rcases hs.covered id hid with ⟨top, htop, hbelow⟩ | ⟨b, hb, -⟩
  · rw [List.mem_singleton.mp htop] at hbelow
    exact hbelow
  · cases hb

/-- The tree of a unit without faults has all nodes of the arena. -/
theorem nodes_of_strict (h : parseSource src (opts.inMode .strict) = .ok parsed) :
    parsed.ast.tree.nodes = parsed.ast.arena.size := by
  obtain ⟨lexed, -, hread⟩ := lexed_of_parseSource h
  obtain ⟨s, root, dropped, hs, -, -, rfl⟩ := readProgram_history hread
  cases hs.dropped_eq_nil rfl
  have hcount : (s.arena.treeOf s.names root.id).nodes + 0 + 2 * 0 = s.arena.size := by
    apply hs.count_nodes fun id => (s.arena.treeOf s.names id).nodes
    intro id n hn
    rw [Arena.treeOf_node hs.forest.earlier hn, Tree.nodes_node, NodeKind.children_map,
      List.map_map]
    rfl
  exact hcount

/-- The names of a unit without faults are words of its source. -/
theorem word_of_strict (h : parseSource src (opts.inMode .strict) = .ok parsed) {name : String}
    (hname : Value.ident name ∈ parsed.ast.tree.values) : IsWord name := by
  obtain ⟨lexed, before, span, hlex, htokens, hvalues⟩ := tokenValues_of_strict h
  rw [← hvalues] at hname
  obtain ⟨token, htoken, hvalue⟩ := List.mem_filterMap.mp hname
  have hmem : token ∈ (splitEof lexed.tokens).1 := by
    rw [htokens, splitEof_push]
    exact htoken
  cases hkind : token.kind with
  | ident sym =>
    rw [hkind, TokenKind.value?_ident, Option.some_inj] at hvalue
    cases hvalue
    exact lex_ident hlex hmem hkind
  | keyword word =>
    rw [hkind, TokenKind.value?_keyword] at hvalue
    obtain ⟨_, -, hbool⟩ := Option.map_eq_some_iff.mp hvalue
    cases hbool
  | _ =>
    rw [hkind] at hvalue
    cases hvalue

/-- A unit is a forest that is rooted at its last node: nodes hold earlier
nodes only, no node is held twice, and all stand below the root but the
statements that blocks have dropped, each with the zero it was made of. Without
faults there are none of these, and the outline has a line for each node. -/
theorem parsed_rooted_forest (h : parseSource src opts = .ok parsed) :
    parsed.ast.arena.Ordered ∧
    parsed.ast.root + 1 = parsed.ast.arena.size ∧
    (∃ items span, parsed.ast.arena.nodes[parsed.ast.root]? = some ⟨.program items, span⟩) ∧
    parsed.ast.arena.held.Nodup ∧
    (∃ lexed s root dropped, lex src opts.limits = .ok lexed ∧ parsed = .ofRun (root, s) ∧
      History (.ofStream lexed opts) (splitEof lexed.tokens).1 s [root] dropped ∧
      (∀ b ∈ dropped, parsed.ast.arena.LeftBehind b) ∧
      ∀ id < parsed.ast.arena.size, ¬parsed.ast.arena.Below parsed.ast.root id ↔
        ∃ b ∈ dropped, id = b.id ∨ id + 1 = b.id) ∧
    (parsed.diagnostics = #[] →
      (∀ id < parsed.ast.arena.size, parsed.ast.arena.Below parsed.ast.root id) ∧
        HasLines parsed.ast.tree.outline parsed.ast.arena.size) := by
  obtain ⟨lexed, hlex, hread⟩ := lexed_of_parseSource h
  obtain ⟨s, root, dropped, hs, ⟨items, hitems⟩, hlast, hparsed⟩ := readProgram_history hread
  have hroot := hs.loose_nodes root (List.mem_singleton_self root)
  have hforest := hs.forest
  have hkind : root.node.kind ≠ .int 0 := by simp [hitems]
  refine ⟨?_, ?_, ?_, ?_, ⟨lexed, s, root, dropped, hlex, hparsed, hs, ?_, ?_⟩, ?_⟩
  · rw [hparsed]
    exact hforest.earlier
  · rw [hparsed]
    exact hlast
  · rw [hparsed]
    exact ⟨items, root.node.span, by rw [← hitems]; exact hroot⟩
  · rw [hparsed]
    exact (List.nodup_append.mp hforest.once).1
  · rw [hparsed]
    exact hs.dropped_left_behind
  · rw [hparsed]
    exact fun id hid => hs.not_below_iff hkind hid
  · intro hclean
    have hstrict := parseSource_strict_of_clean opts h hclean
    constructor
    · exact fun id hid => below_of_strict hstrict hid
    · rw [← nodes_of_strict hstrict]
      exact Tree.hasLines_outline fun name hname => (word_of_strict hstrict hname).flat

/-- A source in which a block drops a statement, and one without faults. -/
theorem parsed_rooted_forest_dropped :
    (∃ parsed b, parseSource "fn f()\x7b)\x7d" {} = .ok parsed ∧
      ¬parsed.ast.arena.Below parsed.ast.root 0 ∧ parsed.ast.arena.LeftBehind b ∧ b.id = 1) ∧
    ∃ parsed, parseSource "fn f()\x7ba;\x7d" {} = .ok parsed ∧
      HasLines parsed.ast.tree.outline 5 := by
  constructor
  · obtain ⟨parsed, hparsed⟩ :=
      exists_of_isOk (show (parseSource "fn f()\x7b)\x7d" {}).isOk by decide +kernel)
    have hchildren : ((parseSource "fn f()\x7b)\x7d" {}).toOption.map fun parsed =>
        parsed.ast.arena.nodes.toList.map (·.kind.children)) = some [[], [0], [], [2], [3]] := by
      decide +kernel
    rw [hparsed] at hchildren
    have hlists := Option.some_inj.mp hchildren
    obtain ⟨-, hlast, -, -, ⟨-, -, -, dropped, -, -, -, hbehind, hiff⟩, -⟩ :=
      parsed_rooted_forest hparsed
    have hsize : parsed.ast.arena.size = 5 := by
      simpa [Arena.size] using congrArg List.length hlists
    have hroot : parsed.ast.root = 4 := Nat.succ.inj (hlast.trans hsize)
    have hheld (parent : NodeId) (n : Node) (hn : parsed.ast.arena.nodes[parent]? = some n) :
        [[], [0], [], [2], [3]][parent]? = some n.kind.children := by
      rw [← hlists, List.getElem?_map, Array.getElem?_toList, hn]
      rfl
    have habove (id : NodeId) (hbelow : parsed.ast.arena.Below parsed.ast.root id) :
        id = 2 ∨ id = 3 ∨ id = 4 := by
      induction hbelow with
      | self => exact .inr (.inr hroot)
      | @child parent child n _ hn hchild ih =>
        have hlist := hheld parent n hn
        rcases ih with rfl | rfl | rfl
        · rw [← Option.some.inj hlist] at hchild
          cases hchild
        · rw [← Option.some.inj hlist] at hchild
          exact .inl (List.mem_singleton.mp hchild)
        · rw [← Option.some.inj hlist] at hchild
          exact .inr (.inl (List.mem_singleton.mp hchild))
    have hzero : ¬parsed.ast.arena.Below parsed.ast.root 0 := by
      intro hbelow
      exact absurd (habove 0 hbelow) (by decide)
    obtain ⟨b, hb, hid⟩ := (hiff 0 (by rw [hsize]; decide)).mp hzero
    have hleft := hbehind b hb
    obtain ⟨inner, -, hinner, -⟩ := hbehind b hb
    refine ⟨parsed, b, hparsed, hzero, hleft, ?_⟩
    rcases hid with hid | hid
    · cases hid.trans hinner
    · exact hid.symm
  · obtain ⟨parsed, hparsed⟩ :=
      exists_of_isOk (show (parseSource "fn f()\x7ba;\x7d" {}).isOk by decide +kernel)
    have hclean : reported Parsed.diagnostics (parseSource "fn f()\x7ba;\x7d" {}) = #[] := by
      decide +kernel
    have hsize : ((parseSource "fn f()\x7ba;\x7d" {}).toOption.map fun parsed =>
        parsed.ast.arena.size) = some 5 := by
      decide +kernel
    rw [hparsed] at hclean hsize
    have hfive : parsed.ast.arena.size = 5 := Option.some.inj hsize
    obtain ⟨-, -, -, -, -, hwhole⟩ := parsed_rooted_forest hparsed
    have hlines := (hwhole hclean).2
    rw [hfive] at hlines
    exact ⟨parsed, hparsed, hlines⟩

end

end StagedCompiler
