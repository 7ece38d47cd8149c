import StagedCompiler.Proofs.Lexer.SourceTokens
import StagedCompiler.Proofs.Tree.AssemblingReaders
import StagedCompiler.Proofs.Tree.Store

/-!
A clean reading keeps every value. The tokens that a strict reader takes have
the values of the row it puts together, so a node has those of the tokens it
stands for, in the same order; nothing is lost, doubled or moved on the way.
-/

namespace StagedCompiler

open Ingredient (nodes)

def Ingredient.values (s : ParseState) : Ingredient → List Value
  | word kind => (kind.value? s.names).toList
  | node b => ((s.tree? b.id).getD .empty).values

theorem TokenKind.values_bearing (kind : TokenKind) (s : ParseState) :
    kind.bearing.flatMap (Ingredient.values s) = (kind.value? s.names).toList := by
  cases kind with
  | keyword word =>
    rw [value?_keyword, bearing]
    cases htruth : word.truth? with
    | none => rfl
    | some v => simp [Ingredient.values, value?_keyword, htruth]
  | _ => rfl

/-- What a node is made of and what the row had to say are the same values. -/
theorem Ingredient.values_of_parts (s : ParseState) (xs : List Ingredient) :
    (xs.filterMap (·.part? s.names)).flatMap
        (Sum.elim (fun v => [v]) fun id => ((s.tree? id).getD .empty).values) =
      xs.flatMap (Ingredient.values s) := by
  induction xs with
  | nil => rfl
  | cons x xs ih =>
    rw [List.flatMap_cons, ← ih]
    cases x with
    | word kind => cases hvalue : kind.value? s.names <;> simp [part?, Ingredient.values, hvalue]
    | node b => rfl

namespace Parser

/-- A row that holds what the tokens say: in strict mode those that were taken
have its values. -/
structure Spelled (c : ParseSettings) (tokens : List Token) (s : ParseState)
    (xs : List Ingredient) (s' : ParseState) : Prop where
  within : s'.rest <:+ tokens
  grows : s.arena.size + (nodes xs).length ≤ s'.arena.size
  values : c.mode = .strict → ∃ ts, Took s s' ts ∧ (∀ b ∈ nodes xs, (s'.tree? b.id).isSome) ∧
    tokenValues s'.names ts = xs.flatMap (Ingredient.values s')

section

variable {c : ParseSettings} {tokens : List Token} {s s' s'' : ParseState}
  {xs ys : List Ingredient} {ts : List Token}

/-- What a row has to say is not changed by what follows. -/
theorem Took.values_later (took : Took s s' ts) (hheld : ∀ b ∈ nodes xs, (s.tree? b.id).isSome) :
    (∀ b ∈ nodes xs, (s'.tree? b.id).isSome) ∧
      xs.flatMap (Ingredient.values s') = xs.flatMap (Ingredient.values s) := by
  have hlater (b : Built) (hb : b ∈ nodes xs) : s'.tree? b.id = s.tree? b.id := by
    obtain ⟨t, ht⟩ := Option.isSome_iff_exists.mp (hheld b hb)
    rw [ht, took.trees b.id t ht]
  constructor
  · intro b hb
    rw [hlater b hb]
    exact hheld b hb
  · refine List.flatMap_congr fun x hx => ?_
    cases x with
    | word kind => rw [Ingredient.values, Ingredient.values, took.names]
    | node b =>
      rw [Ingredient.values, Ingredient.values, hlater b (List.mem_filterMap.mpr ⟨_, hx, rfl⟩)]

theorem Spelled.refl (h : s.rest <:+ tokens) : Spelled c tokens s [] s :=
  ⟨h, Nat.le_refl _, fun _ => ⟨[], .refl s, by simp, rfl⟩⟩

theorem Spelled.append (h : Spelled c tokens s xs s') (h' : Spelled c tokens s' ys s'') :
    Spelled c tokens s (xs ++ ys) s'' where
  within := h'.within
  grows := by
    have hgrows := h.grows
    have hgrows' := h'.grows
    rw [Ingredient.nodes_append, List.length_append]
    omega
  values hstrict := by
    obtain ⟨ts, took, hheld, hvalues⟩ := h.values hstrict
    obtain ⟨us, took', hheld', hvalues'⟩ := h'.values hstrict
    obtain ⟨hlater, hsame⟩ := took'.values_later hheld
    refine ⟨ts ++ us, took.trans took', ?_, ?_⟩
    · rw [Ingredient.nodes_append]
      exact List.forall_mem_append.mpr ⟨hlater, hheld'⟩
    · rw [tokenValues_append, List.flatMap_append, hsame, ← hvalues, hvalues', took'.names]

/-- A token that is taken adds its value. -/
theorem Spelled.next (h : Spelled c tokens s xs s') :
    Spelled c tokens s' (front c s').kind.bearing s'.next where
  within := by
    rw [s'.next_rest]
    exact (List.tail_suffix _).trans h.within
  grows := by
    rw [TokenKind.nodes_bearing, s'.next_arena]
    exact Nat.le_refl _
  values _ := by
    rw [TokenKind.nodes_bearing, TokenKind.values_bearing, s'.next_names]
    cases hrest : s'.rest with
    | nil =>
      have hsame : s'.next = s' := by simp [ParseState.next, hrest]
      rw [hsame]
      refine ⟨[], .refl s', by simp, ?_⟩
      rw [front, hrest]
      rfl
    | cons t rest =>
      refine ⟨[t], .head hrest, by simp, ?_⟩
      rw [front_of_rest hrest, tokenValues_cons]
      exact List.append_nil _

/-- In lenient mode there is nothing to show of the values. -/
theorem Spelled.move (h : Spelled c tokens s xs s') (hmode : c.mode = .lenient)
    (hmoved : s'.Moved s'') (hfew : (nodes ys).length ≤ (nodes xs).length) :
    Spelled c tokens s ys s'' where
  within := hmoved.rest.trans h.within
  grows := by
    have hgrows := h.grows
    rw [hmoved.arena]
    omega
  values hstrict := by
    rw [hmode] at hstrict
    cases hstrict

/-- A node takes over the values of what it is made of. -/
theorem Spelled.node {kind : NodeKind Symbol NodeId} (span : Span) (h : Spelled c tokens s xs s')
    (hmade : Made c.mode tokens s'.names xs kind) :
    Spelled c tokens s [.node ⟨s'.arena.size, kind, span⟩] (s'.grow ⟨kind, span⟩) where
  within := h.within
  grows := by
    have hgrows := h.grows
    have hsize := s'.size_grow ⟨kind, span⟩
    simp only [Ingredient.nodes_node, Ingredient.nodes_nil, List.length_singleton]
    omega
  values hstrict := by
    obtain ⟨ts, took, -, hvalues⟩ := h.values hstrict
    have htree := (Denotes.grow s' kind span).tree
    refine ⟨ts ++ [], took.trans (.grow s' _), ?_, ?_⟩
    · rintro b hb
      rw [List.mem_singleton.mp hb, htree]
      rfl
    · rw [List.append_nil, List.flatMap_singleton, Ingredient.values, htree, Option.getD_some,
        Tree.values_of_parts, ← hmade.parts, Ingredient.values_of_parts]
      exact hvalues

end

/-- Where the nodes stand does not matter. -/
def valueRows (c : ParseSettings) (tokens : List Token) : Rows c tokens where
  Row := Spelled c tokens
  Closes s xs _ s' := Spelled c tokens s xs s'
  rest h := h.within.subset
  empty h := .refl h.within
  append := Spelled.append
  row h := h
  take h := h.append h.next
  move h hmode hmoved := h.move hmode hmoved (Nat.le_refl _)
  leave missing h hmode hmoved _ := h.move hmode hmoved (by simp)
  last h := h
  first h hmade := h.node _ hmade
  base h hmade := h.node _ hmade
  drop h h' hdrops := (h.append h').move hdrops.idle.lenient (.next _) (by simp)

/-! ### Programs -/

section

variable {c : ParseSettings} {tokens : List Token} {s : ParseState}

/-- An item is a node more, which no reader makes without a token, so there are
rounds enough to come to the end. -/
theorem itemsToEnd_complete (hstrict : c.mode = .strict) (depth fuel : Nat) (done : Array NodeId)
    (hs : s.rest <:+ tokens) (hfuel : s.rest.length < fuel) :
    (itemsToEnd depth fuel done).Post c s (fun _ s' => (front c s').kind = .eof)
      fun _ => True := by
  induction fuel generalizing done s with
  | zero => exact absurd hfuel (Nat.not_lt_zero _)
  | succ fuel ih =>
    have hrow : (valueRows c tokens).Row s [] s := .refl hs
    have hround {p : Parser Built} (hreads : p.Post c s ((valueRows c tokens).One NodeKind.isItem s)
        fun _ => True) (hcosts : Costs c s 4 0 p 0 0) :
        (do let b ← p; itemsToEnd depth fuel (done.push b.id) : Parser (List NodeId)).Post c s
          (fun _ s' => (front c s').kind = .eof) fun _ => True := by
      rw [post_bind]
      apply (Post.and hreads (hcosts.mono (fun _ _ h => h) fun _ _ => trivial)).imp
      rintro b s1 ⟨⟨hrow, -⟩, hspends⟩
      have hgrows := hrow.grows
      have hnodes := hspends.nodes
      simp only [Ingredient.nodes_node, List.length_cons] at hgrows
      exact ih _ hrow.within (by omega)
    unfold itemsToEnd
    rw [post_bind, post_current]
    split
    · next hk => exact hk
    iterate 3
      next hk =>
        exact hround (item_reads depth s hrow) (item_costs (by simp [hk]) (Nat.zero_le _))
    iterate 2
      next hk =>
        exact hround (importPath_reads hrow (by rw [hk]; rfl)) (importPath_costs (by simp [hk]))
    · rw [post_bind, post_fault_strict hstrict]
      trivial

/-- A strict reader takes all tokens, and the unit has their values. -/
theorem program_values (hstrict : c.mode = .strict) (hcount : s.rest.length ≤ c.tokenCount) :
    program.Post c s (fun root s' => (front c s').kind = .eof ∧ ∃ ts, Took s s' ts ∧
      tokenValues s'.names ts = ((s'.tree? root.id).getD .empty).values) fun _ => True := by
  have hends : program.Post c s (fun _ s' => (front c s').kind = .eof) fun _ => True := by
    unfold program
    rw [post_bind, post_current, post_bind, post_read, post_bind, post_rounds, post_bind]
    apply (itemsToEnd_complete hstrict _ _ _ (List.suffix_refl _) (Nat.lt_succ_of_le hcount)).imp
    intro items s1 hend
    rw [post_bind, post_current, post_build]
    exact ⟨fun _ _ => trivial, fun _ => hend⟩
  have hrow : (valueRows c s.rest).Row s [] s := .refl (List.suffix_refl _)
  apply (Post.and hends (program_row hrow)).imp
  rintro _ _ ⟨hend, bs, s1, h1, hmade, rfl, rfl⟩
  obtain ⟨ts, took, -, hvalues⟩ := (h1.node _ hmade).values hstrict
  rw [List.flatMap_singleton] at hvalues
  exact ⟨hend, ts, took, hvalues⟩

end

end Parser

/-- A clean source and its unit have the same values in the same order. -/
theorem tokenValues_of_strict {src : String} {opts : Options} {parsed : Parsed}
    (h : parseSource src (opts.inMode .strict) = .ok parsed) :
    ∃ lexed before span, lex src opts.limits = .ok lexed ∧
      lexed.tokens = Array.push before ⟨.eof, span⟩ ∧
      tokenValues lexed.names before.toList = parsed.ast.tree.values := by
  obtain ⟨lexed, hlex, hread⟩ := lexed_of_parseSource h
  obtain ⟨before, span, htokens, hbefore⟩ := lex_tokens_of_pieces Piece.token_ne_eof hlex
  refine ⟨lexed, before, span, hlex, htokens, ?_⟩
  have hsplit : splitEof lexed.tokens = (before.toList, span) := by
    rw [htokens]
    exact splitEof_push before span
  obtain ⟨root, s, ⟨hend, ts, took, hvalues⟩, rfl⟩ := (Parser.program_values
    (c := .ofStream lexed (opts.inMode .strict)) (s := .ofStream lexed (opts.inMode .strict)) rfl
    (Nat.le_refl _)).of_readProgram hread
  have hall : before.toList = ts ++ s.rest := by
    rw [← took.rest, ParseState.ofStream, hsplit]
  -- The reader stopped at the end: no token before it closes the stream.
  have hrest : s.rest = [] := by
    cases hs : s.rest with
    | nil => rfl
    | cons first rest =>
      have hmem : first ∈ before.toList := by
        rw [hall, hs]
        simp
      rw [Parser.front, hs] at hend
      exact absurd hend (hbefore first (Array.mem_toList_iff.mp hmem))
  have hnames : s.names = lexed.names := took.names
  rw [hall, hrest, List.append_nil, ← hnames, hvalues, Ast.tree, Array.getD_eq_getD_getElem?]
  rfl

/-- The values of a clean source are those of its unit, with none lost, doubled
or moved. -/
theorem strict_parse_keeps_values {src : String} (opts : Options) {parsed : Parsed}
    (h : parseSource src (opts.inMode .strict) = .ok parsed) :
    ∃ lexed, lex src opts.limits = .ok lexed ∧
      tokenValues lexed.names lexed.tokens.toList = parsed.ast.tree.values := by
  obtain ⟨lexed, before, span, hlex, htokens, hvalues⟩ := tokenValues_of_strict h
  refine ⟨lexed, hlex, ?_⟩
  rw [htokens, Array.toList_push, tokenValues_append, hvalues]
  exact List.append_nil _

/-- A source with names before and behind types and values. -/
theorem strict_parse_keeps_values_of_function :
    ∃ lexed parsed, lex "fn f(x: [i64; 3])\x7bx[0].a = (true);\x7d" {} = .ok lexed ∧
      parseSource "fn f(x: [i64; 3])\x7bx[0].a = (true);\x7d" ⟨.strict, {}, .declarations⟩ =
        .ok parsed ∧
      tokenValues lexed.names lexed.tokens.toList = parsed.ast.tree.values ∧
      parsed.ast.tree.values = [.ident "f", .ident "x", .ident "i64", .int 3, .ident "x", .int 0,
        .ident "a", .bool true] := by
  obtain ⟨parsed, hparsed⟩ := exists_of_isOk (show (parseSource
    "fn f(x: [i64; 3])\x7bx[0].a = (true);\x7d" ⟨.strict, {}, .declarations⟩).isOk by
      decide +kernel)
  have hvalues : ((parseSource "fn f(x: [i64; 3])\x7bx[0].a = (true);\x7d"
      ⟨.strict, {}, .declarations⟩).toOption.map fun parsed => parsed.ast.tree.values) =
        some [.ident "f", .ident "x", .ident "i64", .int 3, .ident "x", .int 0, .ident "a",
          .bool true] := by
    decide +kernel
  rw [hparsed] at hvalues
  obtain ⟨lexed, hlex, hsame⟩ :=
    strict_parse_keeps_values ⟨.strict, {}, .declarations⟩ hparsed
  exact ⟨lexed, parsed, hlex, hparsed, hsame, Option.some_inj.mp hvalues⟩

end StagedCompiler
