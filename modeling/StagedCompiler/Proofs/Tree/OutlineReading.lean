import StagedCompiler.Proofs.Target.ClosedText
import StagedCompiler.Proofs.Tree.Reachability

/-!
Outlines can be read back. The nodes below the root are visited in pre-order,
each once, and the outline has a line for each visit. The lines show the levels
and the labels; from the last line to the first, each takes as its children the
trees that stand deeper than itself, up to the first that does not.
-/

namespace StagedCompiler

/-! ### Visits -/

/-- A node, at its level. -/
structure Visit where
  id : NodeId
  node : Node
  depth : Nat

/-- The nodes below some nodes of one level, in pre-order. -/
inductive Arena.Walk (a : Arena) : List NodeId → Nat → List Visit → Prop
  | nil {depth : Nat} : Walk a [] depth []
  | cons {id : NodeId} {ids : List NodeId} {n : Node} {depth : Nat} {below rest : List Visit} :
      a.nodes[id]? = some n → Walk a n.kind.children (depth + 1) below → Walk a ids depth rest →
        Walk a (id :: ids) depth (⟨id, n, depth⟩ :: (below ++ rest))

namespace Arena

variable {a : Arena} {ids loose : List NodeId} {depth : Nat} {visits : List Visit}

/-- Below nodes that hold earlier ones only there is always a walk. -/
theorem Ordered.exists_walk (h : a.Ordered) (hids : ∀ id ∈ ids, id < a.size) (depth : Nat) :
    ∃ visits, a.Walk ids depth visits := by
  -- Each level down, the numbers are smaller.
  have hbelow (bound : Nat) : ∀ (ids : List NodeId) (depth : Nat),
      (∀ id ∈ ids, id < bound ∧ id < a.size) → ∃ visits, a.Walk ids depth visits := by
    induction bound using Nat.strong_induction_on with
    | _ bound ih =>
      intro ids depth hids
      induction ids with
      | nil => exact ⟨[], .nil⟩
      | cons id ids ihids =>
        obtain ⟨⟨hbound, hsize⟩, hothers⟩ := List.forall_mem_cons.mp hids
        have hnode := Array.getElem?_eq_getElem hsize
        obtain ⟨below, hchildren⟩ := ih id hbound a.nodes[id].kind.children (depth + 1)
          fun child hchild => by
            have hlt := h id _ hnode child hchild
            exact ⟨hlt, Nat.lt_trans hlt hsize⟩
        obtain ⟨rest, hrest⟩ := ihids hothers
        exact ⟨_, .cons hnode hchildren hrest⟩
  exact hbelow a.size ids depth fun id hid => ⟨hids id hid, hids id hid⟩

/-- All that stands below the nodes is visited, and nothing else. -/
theorem Walk.mem_iff (h : a.Walk ids depth visits) {id : NodeId} :
    id ∈ visits.map (·.id) ↔ ∃ top ∈ ids, a.Below top id := by
  induction h with
  | nil => simp
  | @cons top ids n depth below rest hn _ _ ihbelow ihrest =>
    rw [List.map_cons, List.map_append, List.mem_cons, List.mem_append, ihbelow, ihrest,
      List.exists_mem_cons_iff]
    constructor
    · rintro (rfl | ⟨child, hchild, hid⟩ | hother)
      · exact .inl .self
      · exact .inl ((Below.self.child hn hchild).trans hid)
      · exact .inr hother
    · rintro (hid | hother)
      · rcases below_cases hn hid with rfl | hchild
        · exact .inl rfl
        · exact .inr (.inl hchild)
      · exact .inr (.inr hother)

/-- No node is visited twice. -/
theorem Walk.nodup (h : a.Walk ids depth visits) (hforest : a.Forest loose)
    (hapart : ids.Pairwise fun top other => ∀ id, a.Below top id → ¬a.Below other id) :
    (visits.map (·.id)).Nodup := by
  induction h with
  | nil => exact .nil
  | @cons top ids n depth below rest hn hwalk hothers ihbelow ihrest =>
    obtain ⟨hfirst, hapart⟩ := List.pairwise_cons.mp hapart
    have hunder (id : NodeId) (hid : id ∈ below.map (·.id)) :
        a.Below top id ∧ id < top := by
      obtain ⟨child, hchild, hid⟩ := hwalk.mem_iff.mp hid
      have hlt := hforest.earlier _ _ hn _ hchild
      exact ⟨(Below.self.child hn hchild).trans hid,
        Nat.lt_of_le_of_lt (hforest.earlier.below_le hid) hlt⟩
    have hbeside (id : NodeId) (hid : a.Below top id) : id ∉ rest.map (·.id) := by
      intro hrest
      obtain ⟨other, hother, hid'⟩ := hothers.mem_iff.mp hrest
      exact hfirst other hother id hid hid'
    have hchildren : n.kind.children.Pairwise
        fun child other => ∀ id, a.Below child id → ¬a.Below other id := by
      apply (hforest.children_nodup hn).imp_of_mem
      intro child other hchild hother hne id hid
      exact hforest.siblings_apart hn hchild hother hne hid
    rw [List.map_cons, List.map_append, List.nodup_cons, List.nodup_append]
    refine ⟨?_, ihbelow hchildren, ihrest hapart, ?_⟩
    · intro htop
      rcases List.mem_append.mp htop with htop | htop
      · exact Nat.lt_irrefl _ (hunder _ htop).2
      · exact hbeside top .self htop
    · rintro id hid _ hrest rfl
      exact hbeside id (hunder id hid).1 hrest

end Arena

/-! ### Lines -/

/-- What a line of an outline shows. -/
structure OutlineEntry where
  depth : Nat
  name : String
  detail : String

def OutlineEntry.line (e : OutlineEntry) : String :=
  Tree.outlineIndent e.depth ++ e.name ++ e.detail ++ "\n"

def Visit.entry (names : Interner) (v : Visit) : OutlineEntry :=
  ⟨v.depth, v.node.kind.label, (v.node.kind.map names.resolve fun id => id).detail⟩

namespace Tree

def entries (t : Tree) : Nat → List OutlineEntry :=
  t.fold fun kind _ children depth =>
    ⟨depth, kind.label, kind.detail⟩ :: children.flatMap fun entries => entries (depth + 1)

theorem entries_node (kind : NodeKind String Tree) (span : Span) (depth : Nat) :
    (node kind span).entries depth = ⟨depth, kind.label, kind.detail⟩ ::
      kind.children.flatMap fun child => child.entries (depth + 1) := by
  unfold entries
  rw [fold_node, List.flatMap_map]

theorem outlineLines_eq (t : Tree) (depth : Nat) :
    t.outlineLines depth = (t.entries depth).map OutlineEntry.line := by
  induction t using Tree.induction generalizing depth with
  | step kind span ih =>
    rw [outlineLines_node, entries_node, List.map_cons, List.map_flatMap]
    congr 1
    exact List.flatMap_congr fun child hchild => ih child hchild (depth + 1)

end Tree

theorem NodeKind.label_map {Name Name' Child Child' : Type} (f : Name → Name')
    (g : Child → Child') (kind : NodeKind Name Child) : (kind.map f g).label = kind.label := by
  cases kind <;> rfl

theorem NodeKind.label_word {Name Child : Type} (kind : NodeKind Name Child) :
    kind.label.toList ≠ [] ∧ ' ' ∉ kind.label.toList := by
  unfold label
  split <;> decide

theorem NodeKind.detail_apart {Child : Type} (kind : NodeKind String Child) :
    ∀ c ∈ kind.detail.toList.head?, c = ' ' := by
  cases kind with
  | range _ _ flag | bool flag | refType flag _ => cases flag <;> simp [detail]
  | _ => simp [detail]

theorem NodeKind.detail_map {Name Child Child' : Type} (f : Name → String) (g : Child → Child')
    (kind : NodeKind Name Child) :
    (kind.map f g).detail = (kind.map f fun child => child).detail := by
  cases kind <;> rfl

/-- The entries of a tree are those of the visits to its nodes. -/
theorem Arena.Walk.entries {a : Arena} {ids : List NodeId} {depth : Nat} {visits : List Visit}
    (h : a.Walk ids depth visits) (horder : a.Ordered) (names : Interner) :
    ids.flatMap (fun id => (a.treeOf names id).entries depth) =
      visits.map (Visit.entry names) := by
  induction h with
  | nil => rfl
  | cons hn _ _ ihbelow ihrest =>
    rw [List.flatMap_cons, Arena.treeOf_node horder hn, Tree.entries_node, NodeKind.children_map,
      List.flatMap_map, ihbelow, ihrest, List.map_cons, List.map_append, NodeKind.label_map,
      NodeKind.detail_map]
    rfl

/-! ### Reading lines -/

/-- The level of a line, its first word and the rest. -/
def OutlineEntry.ofLine (line : List Char) : OutlineEntry :=
  let text := line.dropWhile (· = ' ')
  ⟨(line.takeWhile (· = ' ')).length / 2, .ofList (text.takeWhile (· ≠ ' ')),
    .ofList (text.dropWhile (· ≠ ' '))⟩

/-- A name is a word, and what follows it is behind a blank and on its line. -/
structure OutlineEntry.Legible (e : OutlineEntry) : Prop where
  word : e.name.toList ≠ [] ∧ ' ' ∉ e.name.toList
  apart : ∀ c ∈ e.detail.toList.head?, c = ' '
  flat : Flat e.name ∧ Flat e.detail

namespace OutlineEntry

def chars (e : OutlineEntry) : List Char :=
  List.replicate (2 * e.depth) ' ' ++ (e.name.toList ++ e.detail.toList)

theorem toList_line (e : OutlineEntry) : e.line.toList = e.chars ++ ['\n'] := by
  simp [line, chars, Tree.outlineIndent]

/-- A line is taken apart into the entry that it was written for. -/
theorem Legible.ofLine_chars {e : OutlineEntry} (h : e.Legible) : ofLine e.chars = e := by
  obtain ⟨depth, name, detail⟩ := e
  obtain ⟨⟨hne, hword⟩, hapart, -⟩ := h
  have hblanks : ∀ c ∈ List.replicate (2 * depth) ' ', decide (c = ' ') = true := by simp
  have hother (c : Char) (hc : c ∈ name.toList) : c ≠ ' ' := fun hblank => hword (hblank ▸ hc)
  have hname : ∀ c ∈ name.toList, decide (c ≠ ' ') = true := by simpa using hother
  have hfirst : (name.toList ++ detail.toList).takeWhile (fun c => decide (c = ' ')) = [] ∧
      (name.toList ++ detail.toList).dropWhile (fun c => decide (c = ' ')) =
        name.toList ++ detail.toList := by
    cases hchars : name.toList with
    | nil => exact absurd hchars hne
    | cons c rest => simp [hother c (by simp [hchars])]
  have hdetail : detail.toList.takeWhile (fun c => decide (c ≠ ' ')) = [] ∧
      detail.toList.dropWhile (fun c => decide (c ≠ ' ')) = detail.toList := by
    cases hchars : detail.toList with
    | nil => exact ⟨rfl, rfl⟩
    | cons c rest => simp [hapart c (by simp [hchars])]
  unfold ofLine chars
  dsimp only
  rw [List.takeWhile_append_of_pos hblanks, List.dropWhile_append_of_pos hblanks, hfirst.1,
    hfirst.2, List.takeWhile_append_of_pos hname, List.dropWhile_append_of_pos hname, hdetail.1,
    hdetail.2]
  simp

theorem Legible.flat_chars {e : OutlineEntry} (h : e.Legible) : '\n' ∉ e.chars := by
  have hflat := h.flat
  simp only [Flat] at hflat
  simp [chars, hflat]

/-- The lines of a text are found at their ends. -/
theorem splitOn_lines {es : List OutlineEntry} (h : ∀ e ∈ es, e.Legible) :
    (String.join (es.map line)).toList.splitOn '\n' = es.map chars ++ [[]] := by
  induction es with
  | nil => rfl
  | cons e es ih =>
    obtain ⟨he, hes⟩ := List.forall_mem_cons.mp h
    rw [List.map_cons, String.join_cons, String.toList_append, toList_line, List.append_assoc,
      List.singleton_append, List.splitOn_append_cons_self_of_not_mem he.flat_chars, ih hes]
    rfl

end OutlineEntry

/-! ### Reading trees -/

/-- An ordered tree of labels. -/
inductive LabelTree where
  | node (name detail : String) (children : List LabelTree)

def Tree.labels (t : Tree) : LabelTree :=
  t.fold fun kind _ children => .node kind.label kind.detail children

/-- The trees behind an entry that stand deeper become its children. -/
def OutlineEntry.nest (e : OutlineEntry) (pending : List (Nat × LabelTree)) :
    List (Nat × LabelTree) :=
  (e.depth, .node e.name e.detail ((pending.takeWhile (e.depth < ·.1)).map (·.2))) ::
    pending.dropWhile (e.depth < ·.1)

/-- Read an outline, the last line first. -/
def readOutline (text : String) : Option LabelTree :=
  match ((text.toList.splitOn '\n').dropLast.map .ofLine).foldr OutlineEntry.nest [] with
  | [(_, t)] => some t
  | _ => none

namespace Tree

theorem labels_node (kind : NodeKind String Tree) (span : Span) :
    (node kind span).labels = .node kind.label kind.detail (kind.children.map labels) :=
  fold_node _ kind span

/-- The entries of a tree make one tree more, before those that stand no deeper. -/
theorem foldr_nest (t : Tree) (depth : Nat) (pending : List (Nat × LabelTree))
    (h : ∀ p ∈ pending.head?, p.1 ≤ depth) :
    (t.entries depth).foldr OutlineEntry.nest pending = (depth, t.labels) :: pending := by
  induction t using Tree.induction generalizing depth pending with
  | step kind span ih =>
    have hchildren : (kind.children.flatMap fun child => child.entries (depth + 1)).foldr
        OutlineEntry.nest pending =
          kind.children.map (fun child => (depth + 1, child.labels)) ++ pending := by
      generalize kind.children = children at ih ⊢
      induction children with
      | nil => rfl
      | cons child children ihchildren =>
        rw [List.flatMap_cons, List.foldr_append,
          ihchildren fun t ht => ih t (List.mem_cons_of_mem _ ht)]
        apply ih child List.mem_cons_self
        cases children with
        | nil => exact fun p hp => Nat.le_succ_of_le (h p hp)
        | cons _ _ => simp
    have hdeeper : ∀ p ∈ kind.children.map fun child => (depth + 1, child.labels),
        decide (depth < p.1) = true := by
      simp
    have hends : pending.takeWhile (fun p => decide (depth < p.1)) = [] ∧
        pending.dropWhile (fun p => decide (depth < p.1)) = pending := by
      cases pending with
      | nil => exact ⟨rfl, rfl⟩
      | cons p pending => simp [h p rfl]
    rw [entries_node, List.foldr_cons, hchildren, OutlineEntry.nest,
      List.takeWhile_append_of_pos hdeeper, List.dropWhile_append_of_pos hdeeper, hends.1, hends.2,
      labels_node]
    simp [Function.comp_def]

/-- All entries of a tree can be told from their lines. -/
theorem legible_entries {t : Tree} (h : ∀ name, Value.ident name ∈ t.values → Flat name)
    (depth : Nat) : ∀ e ∈ t.entries depth, e.Legible := by
  induction t using Tree.induction generalizing depth with
  | step kind span ih =>
    intro e he
    rw [entries_node] at he
    rcases List.mem_cons.mp he with rfl | he
    · exact ⟨kind.label_word, kind.detail_apart, flat_label kind, flat_detail h⟩
    · obtain ⟨child, hchild, he⟩ := List.mem_flatMap.mp he
      exact ih child hchild (fun name hname => h name (mem_values_of_child hchild hname)) _ e he

theorem readOutline_outline {t : Tree} (h : ∀ name, Value.ident name ∈ t.values → Flat name) :
    readOutline t.outline = some t.labels := by
  have hlegible := legible_entries h 0
  have hread : (t.entries 0).map (fun e => OutlineEntry.ofLine e.chars) = t.entries 0 := by
    rw [List.map_congr_left fun e he => (hlegible e he).ofLine_chars, List.map_id']
  rw [readOutline, outline, outlineLines_eq, OutlineEntry.splitOn_lines hlegible,
    List.dropLast_concat, List.map_map, Function.comp_def, hread, foldr_nest t 0 [] (by simp)]

/-- The names in the values of a tree are names of its nodes or of primitive types. -/
theorem flat_values {t : Tree} (h : t.all (·.names.all fun name => decide (Flat name)) = true)
    {name : String} (hname : Value.ident name ∈ t.values) : Flat name := by
  induction t using Tree.induction with
  | step kind span ih =>
    obtain ⟨hkind, hchildren⟩ := all_node.mp h
    have hbelow (t : Tree) (ht : t ∈ kind.children) : Value.ident name ∈ t.values → Flat name :=
      ih t ht (hchildren t ht)
    have hown : name ∈ kind.names → Flat name := by simpa using List.all_eq_true.mp hkind name
    clear ih h hchildren hkind
    cases kind with
    | primType type =>
      rw [values_node] at hname
      cases List.mem_singleton.mp hname
      cases type <;> decide
    | structLit struct fields =>
      rw [values_structLit] at hname
      simp only [NodeKind.names, NodeKind.children] at hown hbelow
      grind
    | _ =>
      rw [values_node] at hname
      grind [valuesStep, NodeKind.children, NodeKind.names]

end Tree

section

variable {src : String} {opts : Options} {parsed : Parsed}

theorem flat_of_parseSource (h : parseSource src opts = .ok parsed) :
    ∀ name, Value.ident name ∈ parsed.ast.tree.values → Flat name := by
  have hnames := names_of_parseSource h (fun _ hword => decide_eq_true hword.flat) (by decide)
  exact fun _ hname => Tree.flat_values hnames hname

/-- The nodes below the root of a unit, each once. -/
theorem walk_of_parseSource (h : parseSource src opts = .ok parsed) :
    ∃ visits, parsed.ast.arena.Walk [parsed.ast.root] 0 visits ∧ (visits.map (·.id)).Nodup := by
  obtain ⟨lexed, -, hread⟩ := lexed_of_parseSource h
  obtain ⟨s, root, dropped, hs, -, hlast, rfl⟩ := readProgram_history hread
  have hforest := hs.forest
  have hroot : ∀ id ∈ [root.id], id < s.arena.size := by
    intro id hid
    rw [List.mem_singleton.mp hid, ← hlast]
    exact Nat.lt_succ_self _
  obtain ⟨visits, hvisits⟩ := hforest.earlier.exists_walk hroot 0
  exact ⟨visits, hvisits, hvisits.nodup hforest (List.pairwise_singleton _ _)⟩

/-- The outline of a unit has a line for each node below its root, in
pre-order, with two blanks for each level. The tree of labels can be read from
it, so units with the same outline have the same labels. -/
theorem outline_determines_labels (h : parseSource src opts = .ok parsed) :
    (∃ visits, parsed.ast.arena.Walk [parsed.ast.root] 0 visits ∧ (visits.map (·.id)).Nodup ∧
      (∀ id, id ∈ visits.map (·.id) ↔ parsed.ast.arena.Below parsed.ast.root id) ∧
      parsed.ast.tree.outline =
        String.join (visits.map fun v => (v.entry parsed.ast.names).line) ∧
      HasLines parsed.ast.tree.outline visits.length) ∧
    readOutline parsed.ast.tree.outline = some parsed.ast.tree.labels ∧
    ∀ (src' : String) (opts' : Options) (parsed' : Parsed), parseSource src' opts' = .ok parsed' →
      parsed'.ast.tree.outline = parsed.ast.tree.outline →
        parsed'.ast.tree.labels = parsed.ast.tree.labels := by
  have hflat := flat_of_parseSource h
  have hread := Tree.readOutline_outline hflat
  refine ⟨?_, hread, ?_⟩
  · obtain ⟨visits, hvisits, hnodup⟩ := walk_of_parseSource h
    have hlines : parsed.ast.tree.outlineLines 0 =
        visits.map fun v => (v.entry parsed.ast.names).line := by
      have hentries := hvisits.entries (ordered_of_parseSource h) parsed.ast.names
      rw [List.flatMap_singleton] at hentries
      rw [Tree.outlineLines_eq, Ast.tree, ← Arena.treeOf, hentries, List.map_map]
      rfl
    have hcount : parsed.ast.tree.nodes = visits.length := by
      rw [← Tree.length_outlineLines _ 0, hlines, List.length_map]
    refine ⟨visits, hvisits, hnodup, fun id => ?_, ?_, ?_⟩
    · rw [hvisits.mem_iff, List.exists_mem_cons_iff]
      simp
    · rw [Tree.outline, hlines]
    · rw [← hcount]
      exact Tree.hasLines_outline hflat
  · intro src' opts' parsed' h' hsame
    have hread' := Tree.readOutline_outline (flat_of_parseSource h')
    rw [hsame, hread, Option.some_inj] at hread'
    exact hread'.symm

/-- A function, laid out in two ways. -/
theorem outline_determines_labels_spaced : ∃ parsed parsed',
    parseSource "fn f()\x7ba;\x7d" {} = .ok parsed ∧
    parseSource "fn f() \x7b a; \x7d" {} = .ok parsed' ∧
    readOutline "Program\n  Function f\n    Block\n      ExprStmt\n        Ident a\n" =
      some parsed.ast.tree.labels ∧
    parsed'.ast.tree.labels = parsed.ast.tree.labels := by
  have houtline : (parseSource "fn f()\x7ba;\x7d" {}).map (·.ast.tree.outline) =
      .ok "Program\n  Function f\n    Block\n      ExprStmt\n        Ident a\n" := by
    decide +kernel
  have houtline' : (parseSource "fn f() \x7b a; \x7d" {}).map (·.ast.tree.outline) =
      .ok "Program\n  Function f\n    Block\n      ExprStmt\n        Ident a\n" := by
    decide +kernel
  obtain ⟨parsed, hparsed⟩ :=
    exists_of_isOk (show (parseSource "fn f()\x7ba;\x7d" {}).isOk by decide +kernel)
  obtain ⟨parsed', hparsed'⟩ :=
    exists_of_isOk (show (parseSource "fn f() \x7b a; \x7d" {}).isOk by decide +kernel)
  obtain ⟨-, hread, hlabels⟩ := outline_determines_labels hparsed
  rw [hparsed] at houtline
  rw [hparsed'] at houtline'
  have houtline := Except.ok.inj houtline
  refine ⟨parsed, parsed', hparsed, hparsed', ?_, ?_⟩
  · rw [← houtline]
    exact hread
  · exact hlabels _ _ _ hparsed' ((Except.ok.inj houtline').trans houtline.symm)

end

end StagedCompiler
