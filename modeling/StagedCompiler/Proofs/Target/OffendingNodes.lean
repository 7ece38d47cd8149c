import StagedCompiler.Proofs.Target.Offences
import StagedCompiler.Proofs.Tree.Forest
import StagedCompiler.Proofs.Tree.WellSorted

/-!
Which nodes of a unit the generator reports. Trees do not tell equal parts
apart, so that no node is reported twice is a fact about the arena: it is a
forest, and what stands below one child of a node stands below no other.
-/

namespace StagedCompiler

namespace Arena

def Iterates (a : Arena) (id : NodeId) : Prop :=
  ∃ (loop : NodeId) (var : Symbol) (body : NodeId) (span : Span),
    a.nodes[loop]? = some ⟨.forStmt var id body, span⟩

/-- A node for which there is no C form, the node that is reported for it, and
what is reported. -/
inductive Offence (a : Arena) : NodeId → NodeId → Target.Fault → Prop
  | range {id start stop : NodeId} {inclusive : Bool} {span : Span} :
      a.nodes[id]? = some ⟨.range start stop inclusive, span⟩ → ¬a.Iterates id →
        Offence a id id .rangeOutsideFor
  | loop {id iter body : NodeId} {var : Symbol} {span : Span} {n : Node} :
      a.nodes[id]? = some ⟨.forStmt var iter body, span⟩ → a.nodes[iter]? = some n →
        n.kind.isRange = false → Offence a id iter .forOverNonRange
  | float {id : NodeId} {v : Double} {span : Span} :
      a.nodes[id]? = some ⟨.float v, span⟩ → v.isFinite = false → Offence a id id .nonFiniteFloat

section

variable {a : Arena} {loose : List NodeId} {names : Interner} {id top parent parent' child
  other : NodeId} {n m : Node}

/-! ### Reports -/

/-- A list of reports for what stands below some nodes: no node is reported
twice, every report is for an offence, only no reports means no offences, and
the texts are `ds`. -/
structure Reported (a : Arena) (tops : List NodeId) (ds : List Diagnostic)
    (reports : List (NodeId × Target.Fault)) : Prop where
  once : (reports.map Prod.fst).Nodup
  offending : ∀ r ∈ reports, ∃ top ∈ tops, ∃ id, a.Below top id ∧ a.Offence id r.1 r.2
  complete : reports = [] →
    ∀ top ∈ tops, ∀ id other fault, a.Below top id → ¬a.Offence id other fault
  texts : List.Forall₂ (fun r d => ∃ n, a.nodes[r.1]? = some n ∧ d = r.2.diagnostic n.span)
    reports ds

theorem Offence.below {fault : Target.Fault} (h : a.Offence id other fault) :
    a.Below id other := by
  cases h with
  | range _ _ => exact .self
  | loop hn _ _ => exact Below.self.child hn (by simp [NodeKind.children])
  | float _ _ => exact .self

/-- Plain nodes are no offenders. -/
theorem not_offence (hn : a.nodes[id]? = some n) (hplain : n.kind.isPlain = true)
    {fault : Target.Fault} : ¬a.Offence id other fault := by
  intro hoffence
  cases hoffence with
  | range hm _ =>
    cases hn.symm.trans hm
    cases hplain
  | loop hm _ _ =>
    cases hn.symm.trans hm
    cases hplain
  | float hm _ =>
    cases hn.symm.trans hm
    cases hplain

namespace Reported

variable {tops tops' : List NodeId} {ds ds' : List Diagnostic}
  {reports reports' : List (NodeId × Target.Fault)}

theorem nil : a.Reported [] [] [] :=
  ⟨.nil, by simp, by simp, .nil⟩

/-- Reports for nodes that have nothing below them in common. -/
theorem append (h : a.Reported tops ds reports) (h' : a.Reported tops' ds' reports')
    (hapart : ∀ top ∈ tops, ∀ top' ∈ tops', ∀ id, a.Below top id → ¬a.Below top' id) :
    a.Reported (tops ++ tops') (ds ++ ds') (reports ++ reports') where
  once := by
    rw [List.map_append, List.nodup_append]
    refine ⟨h.once, h'.once, ?_⟩
    rintro id hid _ hid' rfl
    obtain ⟨r, hr, rfl⟩ := List.mem_map.mp hid
    obtain ⟨r', hr', hsame⟩ := List.mem_map.mp hid'
    obtain ⟨top, htop, _, hbelow, hoffence⟩ := h.offending r hr
    obtain ⟨top', htop', _, hbelow', hoffence'⟩ := h'.offending r' hr'
    apply hapart top htop top' htop' r.1 (hbelow.trans hoffence.below)
    rw [← hsame]
    exact hbelow'.trans hoffence'.below
  offending r hr := by
    rcases List.mem_append.mp hr with hr | hr
    · obtain ⟨top, htop, hrest⟩ := h.offending r hr
      exact ⟨top, List.mem_append_left _ htop, hrest⟩
    · obtain ⟨top, htop, hrest⟩ := h'.offending r hr
      exact ⟨top, List.mem_append_right _ htop, hrest⟩
  complete hnone top htop := by
    obtain ⟨hfirst, hsecond⟩ := List.append_eq_nil_iff.mp hnone
    rcases List.mem_append.mp htop with htop | htop
    · exact h.complete hfirst top htop
    · exact h'.complete hsecond top htop
  texts := List.rel_append h.texts h'.texts

/-- Reports for parts of what stands below a node are reports for the node if
there are no offences elsewhere. -/
theorem above (h : a.Reported tops ds reports) (htops : ∀ t ∈ tops, a.Below top t)
    (hrest : ∀ id other fault, a.Below top id → a.Offence id other fault →
      ∃ t ∈ tops, a.Below t id) : a.Reported [top] ds reports where
  once := h.once
  offending r hr := by
    obtain ⟨t, ht, id, hbelow, hoffence⟩ := h.offending r hr
    exact ⟨top, List.mem_singleton_self top, id, (htops t ht).trans hbelow, hoffence⟩
  complete hnone t ht id other fault hbelow hoffence := by
    cases List.mem_singleton.mp ht
    obtain ⟨t, ht, hbelow⟩ := hrest id other fault hbelow hoffence
    exact h.complete hnone t ht id other fault hbelow hoffence
  texts := h.texts

theorem one {fault : Target.Fault} (hbelow : a.Below top id) (hoffence : a.Offence id other fault)
    (hm : a.nodes[other]? = some m) :
    a.Reported [top] [fault.diagnostic m.span] [(other, fault)] where
  once := List.nodup_singleton _
  offending r hr := by
    cases List.mem_singleton.mp hr
    exact ⟨top, List.mem_singleton_self top, id, hbelow, hoffence⟩
  complete hnone := by cases hnone
  texts := .cons ⟨m, hm, rfl⟩ .nil

theorem report_of (h : a.Reported tops ds reports) {d : Diagnostic} (hd : d ∈ ds) :
    ∃ r ∈ reports, ∃ n, a.nodes[r.1]? = some n ∧ d = r.2.diagnostic n.span := by
  obtain ⟨i, hi, rfl⟩ := List.getElem_of_mem hd
  have hlength := h.texts.length_eq
  obtain ⟨n, hn, htext⟩ := h.texts.get (i := i) (by omega) hi
  exact ⟨_, List.getElem_mem _, n, hn, htext⟩

end Reported

/-- Reports for parts below each of several children of a node. -/
theorem Forest.reported_parts (h : a.Forest loose) (hn : a.nodes[parent]? = some n)
    {tops : NodeId → List NodeId} {said : NodeId → List Diagnostic} {children : List NodeId}
    (hchildren : ∀ child ∈ children, child ∈ n.kind.children) (hnodup : children.Nodup)
    (htops : ∀ child ∈ children, ∀ top ∈ tops child, a.Below child top)
    (hsaid : ∀ child ∈ children, ∃ reports, a.Reported (tops child) (said child) reports) :
    ∃ reports, a.Reported (children.flatMap tops) (children.flatMap said) reports := by
  induction children with
  | nil => exact ⟨[], .nil⟩
  | cons child children ih =>
    obtain ⟨hfirst, hlater⟩ := List.forall_mem_cons.mp hchildren
    obtain ⟨hbelow, htops⟩ := List.forall_mem_cons.mp htops
    obtain ⟨hreports, hsaid⟩ := List.forall_mem_cons.mp hsaid
    obtain ⟨hfresh, hnodup⟩ := List.nodup_cons.mp hnodup
    obtain ⟨reports, hreports⟩ := hreports
    obtain ⟨reports', hreports'⟩ := ih hlater hnodup htops hsaid
    refine ⟨reports ++ reports', hreports.append hreports' ?_⟩
    intro top htop top' htop' id hid hid'
    obtain ⟨other, hother, htop'⟩ := List.mem_flatMap.mp htop'
    have hne : child ≠ other := fun heq => hfresh (heq ▸ hother)
    apply h.siblings_apart hn hfirst (hlater other hother) hne ((hbelow top htop).trans hid)
    exact (htops other hother top' htop').trans hid'

theorem Forest.reported_children (h : a.Forest loose) (hn : a.nodes[parent]? = some n)
    {said : NodeId → List Diagnostic} {children : List NodeId}
    (hchildren : ∀ child ∈ children, child ∈ n.kind.children) (hnodup : children.Nodup)
    (hsaid : ∀ child ∈ children, ∃ reports, a.Reported [child] (said child) reports) :
    ∃ reports, a.Reported children (children.flatMap said) reports := by
  have hparts := h.reported_parts hn hchildren hnodup
    (fun child _ top htop => List.mem_singleton.mp htop ▸ Below.self) hsaid
  rwa [List.flatMap_singleton'] at hparts

/-- A plain node has the reports of its children. -/
theorem Forest.reported_plain (h : a.Forest loose) (hn : a.nodes[id]? = some n)
    (hplain : n.kind.isPlain = true)
    (hchildren : ∀ child ∈ n.kind.children,
      ∃ reports, a.Reported [child] (Target.offences (a.treeOf names child)) reports) :
    ∃ reports, a.Reported [id] (Target.offences (a.treeOf names id)) reports := by
  obtain ⟨reports, hreports⟩ :=
    h.reported_children hn (fun _ hchild => hchild) (h.children_nodup hn) hchildren
  have hsaid : Target.offences (a.treeOf names id) =
      n.kind.children.flatMap fun child => Target.offences (a.treeOf names child) := by
    have hplain' : (n.kind.map names.resolve (a.treeOf names)).isPlain = true := by
      rw [NodeKind.isPlain_map, hplain]
    rw [treeOf_node h.earlier hn, Target.offences_plain hplain', NodeKind.children_map,
      List.flatMap_map]
  rw [hsaid]
  refine ⟨reports, hreports.above ?_ ?_⟩
  · exact fun child hchild => Below.self.child hn hchild
  · intro low other fault hbelow hoffence
    rcases below_cases hn hbelow with rfl | hlow
    · exact absurd hoffence (not_offence hn hplain)
    · exact hlow

/-- A loop over a range has the reports of the ends of the range and of its
body. -/
theorem Forest.reported_loop (h : a.Forest loose) {iter body start stop : NodeId} {var : Symbol}
    {inclusive : Bool} {span span' : Span}
    (hn : a.nodes[id]? = some ⟨.forStmt var iter body, span⟩)
    (hm : a.nodes[iter]? = some ⟨.range start stop inclusive, span'⟩)
    (hparts : ∀ part ∈ [start, stop, body],
      ∃ reports, a.Reported [part] (Target.offences (a.treeOf names part)) reports) :
    ∃ reports, a.Reported [id] (Target.offences (a.treeOf names id)) reports := by
  have hnodup := h.children_nodup hn
  have hne : iter ≠ body := by simpa [NodeKind.children] using hnodup
  have hends : ∃ reports, a.Reported [start, stop]
      ([start, stop].flatMap fun child => Target.offences (a.treeOf names child)) reports := by
    apply h.reported_children hm (fun _ hchild => hchild) (h.children_nodup hm)
    intro child hchild
    exact hparts child (List.mem_append_left [body] hchild)
  obtain ⟨ends, hends⟩ := hends
  obtain ⟨inside, hinside⟩ := hparts body (by simp)
  have hsaid : Target.offences (a.treeOf names id) =
      [start, stop].flatMap (fun child => Target.offences (a.treeOf names child)) ++
        Target.offences (a.treeOf names body) := by
    rw [treeOf_node h.earlier hn]
    simp only [NodeKind.map]
    rw [treeOf_node h.earlier hm]
    simp only [NodeKind.map]
    rw [Target.offences_forRange]
    simp
  rw [hsaid]
  refine ⟨ends ++ inside, (hends.append hinside ?_).above ?_ ?_⟩
  · intro top htop other hother low hbelow
    cases List.mem_singleton.mp hother
    have hiter : a.Below iter low := (Below.self.child hm htop).trans hbelow
    exact h.siblings_apart hn (by simp [NodeKind.children]) (by simp [NodeKind.children]) hne hiter
  · intro part hpart
    rcases List.mem_append.mp hpart with hend | hbody
    · exact (Below.self.child hn (by simp [NodeKind.children])).child hm hend
    · cases List.mem_singleton.mp hbody
      exact Below.self.child hn (by simp [NodeKind.children])
  · -- The loop itself and the range in its head are in order.
    intro low other fault hbelow hoffence
    rcases below_cases hn hbelow with rfl | ⟨child, hchild, hlow⟩
    · cases hoffence with
      | range hn' _ => cases hn.symm.trans hn'
      | float hn' _ => cases hn.symm.trans hn'
      | loop hn' hm' hother =>
        cases hn.symm.trans hn'
        cases hm.symm.trans hm'
        cases hother
    · rcases List.mem_cons.mp hchild with rfl | hbody
      · rcases below_cases hm hlow with rfl | ⟨part, hpart, hlow⟩
        · cases hoffence with
          | range _ hfree => exact absurd ⟨id, var, body, span, hn⟩ hfree
          | float hm' _ => cases hm.symm.trans hm'
          | loop hm' _ _ => cases hm.symm.trans hm'
        · exact ⟨part, List.mem_append_left _ hpart, hlow⟩
      · exact ⟨child, List.mem_append_right _ hbody, hlow⟩

/-- Loops go over one of their children only, and over no child of another
node. -/
theorem Forest.not_iterates (h : a.Forest loose) (hn : a.nodes[parent]? = some n)
    (hchild : child ∈ n.kind.children)
    (hother : ∀ var iter body, n.kind = .forStmt var iter body → child ≠ iter) :
    ¬a.Iterates child := by
  rintro ⟨loop, var, body, span, hloop⟩
  cases h.parent_unique hn hchild hloop (by simp [NodeKind.children])
  cases hn.symm.trans hloop
  exact hother var child body rfl rfl

/-- What is said of the tree of a node that no loop goes over is reported for
nodes below it. -/
theorem Forest.reported (h : a.Forest loose) (hn : a.nodes[id]? = some n)
    (hfree : ¬a.Iterates id) :
    ∃ reports, a.Reported [id] (Target.offences (a.treeOf names id)) reports := by
  induction id using Nat.strongRecOn generalizing n with
  | ind id ih =>
    -- Children are earlier nodes, so the claim is known of all that no loop goes over.
    have hbefore {parent child : NodeId} {m : Node} (hparent : parent ≤ id)
        (hm : a.nodes[parent]? = some m) (hchild : child ∈ m.kind.children)
        (hother : ∀ var iter body, m.kind = .forStmt var iter body → child ≠ iter) :
        ∃ reports, a.Reported [child] (Target.offences (a.treeOf names child)) reports := by
      obtain ⟨node, hnode⟩ := h.earlier.child_node hm hchild
      have hlt := h.earlier _ _ hm _ hchild
      exact ih child (Nat.lt_of_lt_of_le hlt hparent) hnode (h.not_iterates hm hchild hother)
    obtain ⟨kind, span⟩ := n
    have hplain (hkind : kind.isPlain = true) :
        ∃ reports, a.Reported [id] (Target.offences (a.treeOf names id)) reports := by
      apply h.reported_plain hn hkind
      intro child hchild
      apply hbefore (Nat.le_refl id) hn hchild
      rintro var iter body rfl
      cases hkind
    cases kind with
    | range start stop inclusive =>
      rw [treeOf_node h.earlier hn, NodeKind.map, Target.offences_range]
      exact ⟨_, Reported.one .self (.range hn hfree) hn⟩
    | float v =>
      rw [treeOf_node h.earlier hn, NodeKind.map, Target.offences_float]
      by_cases hfinite : v.isFinite = true
      · rw [if_pos hfinite]
        refine ⟨[], Reported.nil.above (by simp) ?_⟩
        intro low other fault hbelow hoffence
        rcases below_cases hn hbelow with rfl | ⟨child, hchild, -⟩
        · cases hoffence with
          | range hn' _ => cases hn.symm.trans hn'
          | loop hn' _ _ => cases hn.symm.trans hn'
          | float hn' hinfinite =>
            cases hn.symm.trans hn'
            rw [hfinite] at hinfinite
            cases hinfinite
        · cases hchild
      · rw [if_neg hfinite]
        exact ⟨_, Reported.one .self (.float hn (by simpa using hfinite)) hn⟩
    | forStmt var iter body =>
      have hiter : iter ∈ (NodeKind.forStmt var iter body : NodeKind Symbol NodeId).children := by
        simp [NodeKind.children]
      obtain ⟨m, hm⟩ := h.earlier.child_node hn hiter
      have hlt := h.earlier _ _ hn _ hiter
      by_cases hrange : m.kind.isRange = true
      · obtain ⟨kind, span'⟩ := m
        cases kind with
        | range start stop inclusive =>
          have hne : iter ≠ body := by simpa [NodeKind.children] using h.children_nodup hn
          apply h.reported_loop hn hm
          intro part hpart
          rcases List.mem_append.mp (show part ∈ [start, stop] ++ [body] from hpart) with
            hend | hbody
          · exact hbefore (Nat.le_of_lt hlt) hm hend (by rintro _ _ _ ⟨⟩)
          · cases List.mem_singleton.mp hbody
            apply hbefore (Nat.le_refl id) hn (by simp [NodeKind.children])
            rintro _ _ _ ⟨⟩
            exact hne.symm
        | _ => cases hrange
      · have hsaid : Target.offences (a.treeOf names id) =
            [Target.Fault.forOverNonRange.diagnostic m.span] := by
          rw [treeOf_node h.earlier hn, NodeKind.map, Target.offences_forOther]
          · rw [treeOf_node h.earlier hm]
            rfl
          · rw [treeOf_node h.earlier hm]
            simpa [Tree.kind, NodeKind.isRange_map] using hrange
        rw [hsaid]
        exact ⟨_, Reported.one .self (.loop hn hm (by simpa using hrange)) hm⟩
    | _ => exact hplain rfl

def bodyOf (a : Arena) (id : NodeId) : List NodeId :=
  match a.nodes[id]? with
  | some ⟨.function _ _ _ _ body, _⟩ => [body]
  | _ => []

theorem mem_bodyOf {body : NodeId} (h : body ∈ a.bodyOf id) :
    ∃ name isPublic params ret span,
      a.nodes[id]? = some ⟨.function name isPublic params ret body, span⟩ := by
  unfold bodyOf at h
  split at h
  · next name isPublic params ret body' span hn =>
    cases List.mem_singleton.mp h
    exact ⟨name, isPublic, params, ret, span, hn⟩
  · cases h

theorem below_bodyOf {body : NodeId} (h : body ∈ a.bodyOf id) : a.Below id body := by
  obtain ⟨name, isPublic, params, ret, span, hn⟩ := mem_bodyOf h
  exact Below.self.child hn (by simp [NodeKind.children])

/-- What is said of an item is reported for nodes of its body. -/
theorem Forest.reported_item (h : a.Forest loose) (hn : a.nodes[id]? = some n) :
    ∃ reports, a.Reported (a.bodyOf id) (Target.itemOffences (a.treeOf names id)) reports := by
  rw [treeOf_node h.earlier hn]
  unfold bodyOf
  rw [hn]
  obtain ⟨kind, span⟩ := n
  cases kind with
  | function name isPublic params ret body =>
    have hbody : body ∈ (NodeKind.function name isPublic params ret body :
        NodeKind Symbol NodeId).children := by
      simp [NodeKind.children]
    obtain ⟨m, hm⟩ := h.earlier.child_node hn hbody
    exact h.reported hm (h.not_iterates hn hbody (by rintro _ _ _ ⟨⟩))
  | _ => exact ⟨[], .nil⟩

end

end Arena

def Ast.bodies (ast : Ast) : List NodeId :=
  ast.items.flatMap ast.arena.bodyOf

/-- What the generator says of a unit is reported for nodes of its bodies. -/
theorem readProgram_reported {lexed : Lexed} {opts : Options} {parsed : Parsed}
    (h : readProgram lexed opts = .ok parsed) (support : SupportForm) :
    ∃ reports, parsed.ast.arena.Reported parsed.ast.bodies
      (Target.render parsed.ast.tree support).diagnostics.toList reports := by
  rw [Target.render_diagnostics (readProgram_shape h)]
  obtain ⟨s, root, dropped, hs, ⟨items, hitems⟩, -, rfl⟩ := readProgram_history h
  have hforest := hs.forest
  have hroot := hs.loose_nodes root (List.mem_singleton_self root)
  have hnode : root.node = ⟨.program items, root.node.span⟩ := by rw [← hitems]
  rw [hnode] at hroot
  have htree : (Parsed.ofRun (root, s)).ast.tree.items = items.map (s.arena.treeOf s.names) := by
    change (s.arena.treeOf s.names root.id).items = _
    rw [Arena.treeOf_node hforest.earlier hroot]
    rfl
  have hbodies : (Parsed.ofRun (root, s)).ast.bodies = items.flatMap s.arena.bodyOf := by
    simp only [Ast.bodies, Ast.items, Parsed.ofRun, hroot]
  rw [htree, hbodies, List.flatMap_map]
  apply hforest.reported_parts hroot (fun _ hitem => hitem) (hforest.children_nodup hroot)
  · exact fun item _ top htop => Arena.below_bodyOf htop
  · intro item hitem
    obtain ⟨n, hn⟩ := hforest.earlier.child_node hroot hitem
    exact hforest.reported_item hn

/-- None of the faults of a unit is that a node is out of place. -/
theorem Arena.Offence.message {a : Arena} {id other : NodeId} {fault : Target.Fault}
    (h : a.Offence id other fault) (place : Target.Place) :
    ¬place.text.toList <:+ fault.message.toList := by
  cases h <;> cases place <;> decide +kernel

/-- A unit has a C form throughout if its bodies hold no offender: no range but
in the head of a loop, no loop over anything else, and no float that is not
finite. What is left out otherwise is reported with the place of an offender,
no node twice, and never for standing in the wrong place. -/
theorem codegen_diagnostics_exact {src : String} {opts : Options} {parsed : Parsed}
    (h : parseSource src opts = .ok parsed) (target : Options) :
    ((∃ g, Target.generate parsed.ast (target.inMode .strict) = .ok g) ↔
      ∀ body ∈ parsed.ast.bodies, ∀ id other fault, parsed.ast.arena.Below body id →
        ¬parsed.ast.arena.Offence id other fault) ∧
    ∃ g reports, Target.generate parsed.ast (target.inMode .lenient) = .ok g ∧
      List.Forall₂ (fun (r : NodeId × Target.Fault) d => ∃ n,
        parsed.ast.arena.nodes[r.1]? = some n ∧ d = ⟨.codegen, r.2.message, some n.span⟩)
        reports g.diagnostics.toList ∧
      (reports.map Prod.fst).Nodup ∧
      (∀ r ∈ reports, ∃ body ∈ parsed.ast.bodies, ∃ id, parsed.ast.arena.Below body id ∧
        parsed.ast.arena.Offence id r.1 r.2) ∧
      ∀ d ∈ g.diagnostics, ∀ place : Target.Place, ¬place.text.toList <:+ d.message.toList := by
  obtain ⟨lexed, -, hread⟩ := lexed_of_parseSource h
  obtain ⟨reports, hreports⟩ := readProgram_reported hread target.support
  constructor
  · rw [generate_strict]
    constructor
    · rintro ⟨g, hg⟩
      split at hg
      · next hnone =>
        have htexts := hreports.texts
        rw [hnone] at htexts
        cases htexts
        exact hreports.complete rfl
      · cases hg
    · intro hclean
      have hnone : reports = [] := by
        cases reports with
        | nil => rfl
        | cons r rest =>
          obtain ⟨body, hbody, id, hid, hoffence⟩ := hreports.offending r List.mem_cons_self
          exact absurd hoffence (hclean body hbody id _ _ hid)
      have htexts := hreports.texts
      rw [hnone, List.forall₂_nil_left_iff, Array.toList_eq_nil_iff] at htexts
      rw [if_pos htexts]
      exact ⟨_, rfl⟩
  · refine ⟨_, reports, generate_lenient target _, hreports.texts, hreports.once,
      hreports.offending, ?_⟩
    intro d hd place
    obtain ⟨r, hr, n, -, rfl⟩ := hreports.report_of (Array.mem_toList_iff.mpr hd)
    obtain ⟨_, _, _, _, hoffence⟩ := hreports.offending r hr
    exact hoffence.message place

/-- A loop over a range, a loop over a variable, and a range by itself: two
offenders. -/
theorem codegen_diagnostics_exact_loops :
    ∃ (parsed : Parsed) (g : Target.Generated) (reports : List (NodeId × Target.Fault)),
      parseSource "fn f()\x7bfor i in 0..1 \x7b\x7d for i in a \x7b\x7d 1..2;\x7d" {} = .ok parsed ∧
      Target.generate parsed.ast {} = .ok g ∧ g.diagnostics.size = 2 ∧ reports.length = 2 ∧
      (reports.map Prod.fst).Nodup ∧
      ∀ r ∈ reports, ∃ body ∈ parsed.ast.bodies, ∃ id, parsed.ast.arena.Below body id ∧
        parsed.ast.arena.Offence id r.1 r.2 := by
  obtain ⟨parsed, hparsed⟩ := exists_of_isOk (show (parseSource
    "fn f()\x7bfor i in 0..1 \x7b\x7d for i in a \x7b\x7d 1..2;\x7d" {}).isOk by decide +kernel)
  have hsize : ((parseSource
      "fn f()\x7bfor i in 0..1 \x7b\x7d for i in a \x7b\x7d 1..2;\x7d" {}).toOption.map
        fun parsed => (Target.render parsed.ast.tree .declarations).diagnostics.size) = some 2 := by
    decide +kernel
  rw [hparsed] at hsize
  obtain ⟨-, g, reports, hg, htexts, honce, hoffending, -⟩ := codegen_diagnostics_exact hparsed {}
  have hrender := Except.ok.inj (hg.symm.trans (generate_lenient {} parsed.ast))
  have htwo : g.diagnostics.size = 2 := by
    rw [hrender]
    exact Option.some_inj.mp hsize
  refine ⟨parsed, g, reports, hparsed, hg, htwo, ?_, honce, hoffending⟩
  rw [htexts.length_eq, Array.length_toList, htwo]

end StagedCompiler
