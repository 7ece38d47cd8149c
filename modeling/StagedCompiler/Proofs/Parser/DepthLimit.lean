import StagedCompiler.Proofs.Lexer.TextBytes
import StagedCompiler.Proofs.Parser.ExprHeight
import StagedCompiler.Proofs.Parser.SoleStatement

/-!
What the depth limit says about the height of expressions. Two references made
by one double ampersand take one level between them, so a source can nest more
expressions than the limit allows levels; the sources below do so for every
limit that leaves room for them. Main statement: the limit bounds the height
only where the square of the levels or the number of nodes does.
-/

namespace StagedCompiler

/-! ### References to references -/

/-- The rest of a function body that starts with `k` double ampersands before
a number, which may be the left side of a sum. -/
def refsBody (sum : Bool) : Nat → String
  | 0 => if sum then "1+2;\x7d" else "1;\x7d"
  | k + 1 => "&&" ++ refsBody sum k

def refsSource (sum : Bool) (k : Nat) : String :=
  "fn f()\x7b" ++ refsBody sum k

def refsHeight (sum : Bool) (k : Nat) : Nat :=
  if sum then 2 * k + 2 else 2 * k + 1

def refsNodes (sum : Bool) (k : Nat) : Nat :=
  if sum then 2 * k + 3 else 2 * k + 1

theorem two_mul_lt_refsNodes (sum : Bool) (k : Nat) : 2 * k < refsNodes sum k := by
  unfold refsNodes
  split <;> omega

def tailKinds (sum : Bool) : List TokenKind :=
  if sum then [.punct .plus, .int 2, .punct .semicolon, .punct .rbrace]
  else [.punct .semicolon, .punct .rbrace]

def refsKinds (sum : Bool) : Nat → List TokenKind
  | 0 => .int 1 :: tailKinds sum
  | k + 1 => .punct .andAnd :: refsKinds sum k

open LexState in
/-- The tokens of the body, whatever names are known. -/
theorem reads_refsBody (names : Interner) (sum : Bool) (k : Nat) :
    Reads names (Text.bytes (refsBody sum k)) (refsKinds sum k) names := by
  induction k with
  | zero =>
    have hend : Reads names [59, 125] [.punct .semicolon, .punct .rbrace] names := by
      apply reads_token rfl (by decide) rfl rfl
      apply reads_token rfl (by decide) rfl rfl
      exact reads_end names
    cases sum with
    | false =>
      change Reads names [49, 59, 125] _ _
      apply reads_token rfl (by decide) rfl rfl
      exact hend
    | true =>
      change Reads names [49, 43, 50, 59, 125] _ _
      apply reads_token rfl (by decide) rfl rfl
      apply reads_token rfl (by decide) rfl rfl
      apply reads_token rfl (by decide) rfl rfl
      exact hend
  | succ k ih =>
    have hbytes : Text.bytes (refsBody sum (k + 1)) = 38 :: 38 :: Text.bytes (refsBody sum k) :=
      Text.bytes_append "&&" (refsBody sum k)
    rw [hbytes]
    exact reads_token rfl (by decide) rfl rfl ih

open LexState in
/-- The text of the chain is cut into the tokens that are meant. -/
theorem reads_refsSource (sum : Bool) (k : Nat) :
    Reads .empty (Text.bytes (refsSource sum k)) (Parser.soleHead 0 ++ refsKinds sum k)
      (Interner.empty.intern "f").2 := by
  have hbytes : Text.bytes (refsSource sum k) =
      102 :: 110 :: 32 :: 102 :: 40 :: 41 :: 123 :: Text.bytes (refsBody sum k) :=
    Text.bytes_append "fn f()\x7b" (refsBody sum k)
  rw [hbytes]
  apply reads_token (p := .word [102, 110]) rfl (by decide) rfl rfl
  apply reads_blank (p := .blank 1) rfl (by decide) rfl rfl
  apply reads_token (p := .word [102]) rfl (by decide) rfl rfl
  apply reads_token rfl (by decide) rfl rfl
  apply reads_token rfl (by decide) rfl rfl
  apply reads_token rfl (by decide) rfl rfl
  exact reads_refsBody _ sum k

theorem lex_refsSource {sum : Bool} {k : Nat} {limits : Limits}
    (hroom : (Parser.soleHead 0 ++ refsKinds sum k).length < limits.clamped.maxTokens) :
    ∃ lexed, lex (refsSource sum k) limits = .ok lexed ∧ lexed.diagnostics = #[] ∧
      lexed.tokens.toList.map Token.kind =
        (Parser.soleHead 0 ++ refsKinds sum k) ++ [TokenKind.eof] := by
  obtain ⟨tokens, hlex, hkinds⟩ := lex_of_reads (reads_refsSource sum k) hroom
  exact ⟨_, hlex, rfl, hkinds⟩

/-! ### How they are read -/

namespace Parser

section

variable {names : Interner} {c : ParseSettings} {s : ParseState} {kind : TokenKind}
  {kinds : List TokenKind} {room : Nat} {E : Diagnostics → Prop}

theorem Stands.chain {id : NodeId} {n : Nat} {node : NodeKind Symbol NodeId} {span : Span}
    (h : Stands names s id (Tree.Chain · n)) (hexpr : node.isExpr = true)
    (hid : id ∈ node.children) :
    Stands names (s.grow ⟨node, span⟩) s.arena.size (Tree.Chain · (n + 1)) := by
  apply stands_grow
  apply Tree.Chain.more _ _ h.lookup
  · rw [NodeKind.isExpr_map, hexpr]
  · rw [NodeKind.children_map]
    exact List.mem_map_of_mem hid

theorem Stands.hasChain {id : NodeId} {n : Nat} {node : NodeKind Symbol NodeId} {span : Span}
    (h : Stands names s id (Tree.HasChain · n)) (hid : id ∈ node.children) :
    Stands names (s.grow ⟨node, span⟩) s.arena.size (Tree.HasChain · n) := by
  obtain ⟨u, hu, hn⟩ := h.lookup
  apply stands_grow
  refine ⟨u, .child ?_ hu, hn⟩
  rw [NodeKind.children_map]
  exact List.mem_map_of_mem hid

theorem unary_int (names : Interner) {v : Int} (depth : Nat)
    (h : Left names c s (.int v :: kind :: kinds) (room + 1)) (hkind : opensPostfix kind = false) :
    (unary (depth + 1) false).Post c s
      (fun b s' => Grown names s s' ∧ Left names c s' (kind :: kinds) room ∧
        Stands names s' b.id (Tree.Chain · 1)) E := by
  unfold unary prefixed
  rw [post_bind, post_current, h.front]
  dsimp only [prefixOp?]
  unfold primary
  rw [post_bind, post_bind, post_current, h.front]
  dsimp only [TokenKind.literal?]
  unfold literal
  rw [post_bind, post_advance]
  have hnext := h.next
  refine hnext.post_build (by simp [NodeKind.children]) ?_
  have hgrown : Grown names s s.next := .of_arena s.next_arena
  refine postfixChain_stop ?_ ⟨hgrown.trans (.grow _ _), hnext.grow _, stands_grow (.one rfl)⟩
  rw [(hnext.grow _).front, hkind]

/-- Each double ampersand takes one level and makes two nodes. -/
theorem unary_refs (names : Interner) (sum : Bool) (k : Nat) {depth : Nat} (hdepth : k < depth)
    (h : Left names c s (refsKinds sum k) (room + (2 * k + 1))) :
    (unary depth false).Post c s
      (fun b s' => Left names c s' (tailKinds sum) room ∧
        Stands names s' b.id (Tree.Chain · (2 * k + 1))) E := by
  induction k generalizing s depth room with
  | zero =>
    obtain ⟨depth, rfl⟩ : ∃ n, depth = n + 1 := ⟨depth - 1, by omega⟩
    cases sum with
    | false => exact (unary_int names depth h rfl).imp fun _ _ hb => hb.2
    | true => exact (unary_int names depth h rfl).imp fun _ _ hb => hb.2
  | succ k ih =>
    obtain ⟨depth, rfl⟩ : ∃ n, depth = n + 1 := ⟨depth - 1, by omega⟩
    have hroom : room + (2 * (k + 1) + 1) = room + 2 + (2 * k + 1) := by omega
    rw [hroom] at h
    unfold unary prefixed
    rw [post_bind, post_current, Left.front h]
    dsimp only
    rw [post_bind, post_advance, post_bind, post_current, post_bind]
    unfold applyPrefix
    rw [post_bind]
    refine (ih (by omega) (Left.next h)).imp ?_
    rintro x s1 ⟨hs1, hx⟩
    apply hs1.post_build (by simp [NodeKind.children])
    apply (hs1.grow _).post_build (by simp [NodeKind.children])
    have hinner (span : Span) : Stands names (s1.grow ⟨.unary .ref x.id, span⟩) s1.arena.size
        (Tree.Chain · (2 * k + 2)) := hx.chain rfl (by simp [NodeKind.children])
    exact ⟨(hs1.grow _).grow _, (hinner _).chain rfl (by simp [NodeKind.children])⟩

/-- Both kinds of expressions are read in full. -/
theorem expr_refs (names : Interner) (sum : Bool) (k : Nat) {depth : Nat} (hdepth : k < depth)
    (htwo : sum = true → 2 ≤ depth)
    (h : Left names c s (refsKinds sum k) (room + refsNodes sum k)) :
    (expr depth false).Post c s
      (fun b s' => Left names c s' [.punct .semicolon, .punct .rbrace] room ∧
        Stands names s' b.id (Tree.Chain · (refsHeight sum k))) E := by
  unfold expr
  rw [post_bind]
  cases sum with
  | false =>
    refine (unary_refs names false k hdepth h).imp ?_
    rintro b s1 ⟨hs1, hb⟩
    exact infixChain_stop (stopsBelow_of_none (by rw [Left.front hs1]; rfl)) ⟨hs1, hb⟩
  | true =>
    have hroom : room + refsNodes true k = room + 2 + (2 * k + 1) := by
      simp only [refsNodes, if_true]
      omega
    rw [hroom] at h
    refine (unary_refs names true k hdepth h).imp ?_
    rintro lhs s1 ⟨hs1, hlhs⟩
    obtain ⟨depth, rfl⟩ : ∃ n, depth = n + 2 := ⟨depth - 2, by have := htwo rfl; omega⟩
    unfold infixChain
    rw [post_bind, post_current, Left.front hs1]
    dsimp only [TokenKind.infixOp?, Punct.infixOp?]
    rw [if_neg (by omega), post_bind, post_advance, post_bind]
    refine (unary_int names depth (Left.next hs1) rfl).imp ?_
    rintro rhs s2 ⟨hgrown, hs2, hrhs⟩
    rw [post_bind]
    refine infixChain_stop (stopsBelow_of_none (by rw [hs2.front]; rfl)) ?_
    rw [post_bind]
    refine hs2.post_build (by simp [InfixOp.node, NodeKind.children]) ?_
    refine infixChain_stop (stopsBelow_of_none (by rw [(hs2.grow _).front]; rfl)) ?_
    have hlater : Grown names s1 s2 := (Grown.of_arena s1.next_arena).trans hgrown
    exact ⟨hs2.grow _, (hlhs.later hlater).chain rfl (by simp [InfixOp.node, NodeKind.children])⟩

/-- The statement of the body is read to a chain of the full height. -/
theorem stmt_refs (names : Interner) (sum : Bool) (k : Nat) {depth : Nat} (hdepth : k < depth)
    (htwo : sum = true → 2 ≤ depth) (block conditional : Parser Built)
    (h : Left names c s (refsKinds sum k) (room + 1 + refsNodes sum k)) :
    (stmt depth block conditional).Post c s
      (fun b s' => Left names c s' [.punct .rbrace] room ∧
        Stands names s' b.id (Tree.HasChain · (refsHeight sum k))) E := by
  have hexpr : (exprOrAssign depth).Post c s
      (fun b s' => Left names c s' [.punct .rbrace] room ∧
        Stands names s' b.id (Tree.HasChain · (refsHeight sum k))) E := by
    unfold exprOrAssign
    rw [post_bind]
    refine (expr_refs names sum k hdepth htwo h).imp ?_
    rintro lhs s1 ⟨hs1, hlhs⟩
    rw [post_bind, post_current, hs1.front]
    dsimp only [TokenKind.assignOp?]
    rw [post_bind]
    refine hs1.post_expect fun close => ?_
    apply hs1.next.post_build (by simp [NodeKind.children])
    have hlater : Grown names s1 s1.next := .of_arena s1.next_arena
    have hchain : Stands names s1.next lhs.id (Tree.HasChain · (refsHeight sum k)) :=
      (hlhs.later hlater).imp fun t ht => ⟨t, .self t, ht⟩
    exact ⟨hs1.next.grow _, hchain.hasChain (by simp [NodeKind.children])⟩
  unfold stmt
  rw [post_bind, post_current]
  cases k with
  | zero =>
    rw [Left.front h]
    exact hexpr
  | succ k =>
    rw [Left.front h]
    exact hexpr

end

end Parser

theorem length_refsKinds_le (sum : Bool) (k : Nat) : (refsKinds sum k).length ≤ k + 5 := by
  induction k with
  | zero => cases sum <;> decide
  | succ k ih =>
    simp only [refsKinds, List.length_cons]
    omega

theorem refsKinds_cons (sum : Bool) (k : Nat) : ∃ first more, refsKinds sum k = first :: more ∧
    more ≠ [] ∧ first ∉ [.punct .rbrace, .eof, .punct .semicolon] := by
  cases k with
  | zero => exact ⟨_, _, rfl, by cases sum <;> decide, by decide⟩
  | succ k => exact ⟨_, _, rfl, by cases k <;> simp [refsKinds], by decide⟩

/-- Half a level for each node is enough to read either kind of source. -/
theorem parseSource_refs (sum : Bool) (k : Nat) {opts : Options} {depth : Nat}
    (hmax : opts.limits.maxDepth = depth + 1) (hdepth : k < depth)
    (htwo : sum = true → 2 ≤ depth) (hwidth : 2 ≤ opts.limits.maxChildren)
    (htokens : k + 10 < opts.limits.clamped.maxTokens)
    (hnodes : 4 + refsNodes sum k ≤ opts.limits.clamped.maxNodes) :
    ∃ parsed, parseSource (refsSource sum k) opts = .ok parsed ∧
      parsed.ast.tree.HasChain (refsHeight sum k) := by
  have hlength := length_refsKinds_le sum k
  have hroom : (Parser.soleHead 0 ++ refsKinds sum k).length < opts.limits.clamped.maxTokens := by
    rw [List.length_append, show (Parser.soleHead 0).length = 5 from rfl]
    omega
  obtain ⟨lexed, hlex, hclean, hkinds⟩ := lex_refsSource hroom
  obtain ⟨first, more, hfirst, hmore, hother⟩ := refsKinds_cons sum k
  have hstmt : Parser.ReadsSole lexed.names (.ofStream lexed opts) depth (first :: more)
      (4 + refsNodes sum k) 3 (Tree.HasChain · (refsHeight sum k)) fun _ => False := by
    intro s hs
    rw [← hfirst] at hs
    exact Parser.stmt_refs _ sum k hdepth htwo _ _ hs
  rw [hfirst] at hkinds
  rcases parseSource_sole hlex hclean hkinds hmax hwidth hnodes hmore hother hstmt with
    ⟨parsed, hparsed, name, body, span, span', ⟨stmt, span'', ⟨u, hu, hn⟩, rfl⟩, htree⟩ |
      ⟨ds, -, hno⟩
  · refine ⟨parsed, hparsed, ?_⟩
    have hblock : (Tree.node (.block [stmt]) span'').Inside u := .child List.mem_cons_self hu
    have hfunction : (Tree.node (.function name false [] none (.node (.block [stmt]) span''))
        span).Inside u := .child (by simp [NodeKind.children]) hblock
    rw [htree]
    exact ⟨u, .child List.mem_cons_self hfunction, hn⟩
  · exact hno.elim

/-- An odd limit is passed by a sum, which adds a node and no level. -/
theorem exists_refsHeight_gt {depth : Nat} (hthree : 3 ≤ depth)
    (hroom : depth + 4 < Limits.maxIds) :
    ∃ sum k, k < depth - 1 ∧ (sum = true → 2 ≤ depth - 1) ∧
      4 + refsNodes sum k ≤ Limits.maxIds ∧ depth < refsHeight sum k := by
  have hids : Limits.maxIds = 4294967295 := rfl
  by_cases heven : depth % 2 = 0
  · refine ⟨false, depth / 2, by omega, nofun, ?_, ?_⟩
    · change 4 + (2 * (depth / 2) + 1) ≤ _
      omega
    · change _ < 2 * (depth / 2) + 1
      omega
  · refine ⟨true, depth / 2, by omega, fun _ => by omega, ?_, ?_⟩
    · change 4 + (2 * (depth / 2) + 3) ≤ _
      omega
    · change _ < 2 * (depth / 2) + 2
      omega

/-- A source whose expressions are higher than the limit. -/
theorem exists_higher {depth : Nat} (hthree : 3 ≤ depth) (hroom : depth + 4 < Limits.maxIds) :
    ∃ (src : String) (opts : Options) (parsed : Parsed) (n : Nat), opts.limits.maxDepth = depth ∧
      parseSource src opts = .ok parsed ∧ parsed.ast.tree.HasChain n ∧ depth < n := by
  obtain ⟨sum, k, hk, htwo, hfits, hhigher⟩ := exists_refsHeight_gt hthree hroom
  let opts : Options := { limits := ⟨Limits.maxIds, Limits.maxIds, 2, depth⟩ }
  have hids : Limits.maxIds = 4294967295 := rfl
  have htokens : opts.limits.clamped.maxTokens = Limits.maxIds := Nat.min_self _
  have hnodes : opts.limits.clamped.maxNodes = Limits.maxIds := Nat.min_self _
  have hmax : opts.limits.maxDepth = (depth - 1) + 1 := by
    change depth = _
    omega
  have hsize := two_mul_lt_refsNodes sum k
  obtain ⟨parsed, hparsed, hn⟩ := parseSource_refs sum k hmax hk htwo (Nat.le_refl 2)
    (by omega) (by rw [hnodes]; exact hfits)
  exact ⟨_, opts, parsed, _, rfl, hparsed, hn, hhigher⟩

theorem readProgram_of_parseSource {src : String} {opts : Options} {parsed : Parsed}
    (h : parseSource src opts = .ok parsed) : ∃ lexed, readProgram lexed opts = .ok parsed := by
  obtain ⟨lexed, -, hread⟩ := lexed_of_parseSource h
  exact ⟨lexed, hread⟩

/-- Chains of nested expressions are bounded by a square of the depth limit.
By the limit itself they are bounded only if it leaves no level to spend on an
operand, or is so large that the numbers for nodes run out first. -/
theorem depth_limit_bounds_chains (depth : Nat) :
    (∀ (src : String) (opts : Options) (parsed : Parsed) (n : Nat),
      opts.limits.maxDepth = depth → parseSource src opts = .ok parsed →
        parsed.ast.tree.HasChain n → n ≤ (depth - 1) * (depth - 1)) ∧
    ((∀ (src : String) (opts : Options) (parsed : Parsed) (n : Nat),
      opts.limits.maxDepth = depth → parseSource src opts = .ok parsed →
        parsed.ast.tree.HasChain n → n ≤ depth) ↔
      depth ≤ 2 ∨ Limits.maxIds ≤ depth + 4) := by
  have hsquare (src : String) (opts : Options) (parsed : Parsed) (n : Nat)
      (hmax : opts.limits.maxDepth = depth) (hparsed : parseSource src opts = .ok parsed)
      (hn : parsed.ast.tree.HasChain n) : n ≤ (depth - 1) * (depth - 1) := by
    obtain ⟨lexed, hread⟩ := readProgram_of_parseSource hparsed
    rw [← hmax]
    exact chain_le_square hread hn
  refine ⟨hsquare, ?_, ?_⟩
  · intro hbounded
    by_cases htwo : depth ≤ 2
    · exact .inl htwo
    · by_cases hids : Limits.maxIds ≤ depth + 4
      · exact .inr hids
      · obtain ⟨src, opts, parsed, n, hmax, hparsed, hn, hhigher⟩ :=
          exists_higher (Nat.not_le.mp htwo) (Nat.not_le.mp hids)
        have hle := hbounded src opts parsed n hmax hparsed hn
        omega
  · intro hsmall src opts parsed n hmax hparsed hn
    rcases hsmall with htwo | hids
    · have hle := hsquare src opts parsed n hmax hparsed hn
      obtain rfl | rfl | rfl : depth = 0 ∨ depth = 1 ∨ depth = 2 := by omega
      all_goals omega
    · obtain ⟨lexed, hread⟩ := readProgram_of_parseSource hparsed
      have hnodes := chain_le_maxIds hread hn
      omega

/-- The limit that is set where none is chosen does not bound them. -/
theorem default_depth_limit_exceeded :
    ¬ ∀ (src : String) (opts : Options) (parsed : Parsed) (n : Nat),
      opts.limits.maxDepth = 256 → parseSource src opts = .ok parsed →
        parsed.ast.tree.HasChain n → n ≤ 256 := by
  intro hbounded
  have hsmall := (depth_limit_bounds_chains 256).2.mp hbounded
  revert hsmall
  decide

/-- Two references take one level, and the sum takes none that its operand
needs. -/
theorem double_reference_exceeds_limit :
    ∃ parsed, parseSource "fn f()\x7b&&1+2;\x7d" { limits := { maxDepth := 3 } } = .ok parsed ∧
      parsed.ast.tree.HasChain 4 :=
  parseSource_refs true 1 rfl (by decide) (fun _ => by decide) (by decide) (by decide)
    (by decide)

end StagedCompiler
