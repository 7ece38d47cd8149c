import StagedCompiler.Proofs.Tree.Forest

/-!
A store under a sequence of requests, some of them refused. The requests that
a store admits are known beforehand: those with few enough children, as many of
them as there is room for. `after_eq` says that the store ends with exactly
these behind the nodes it had, and the numbers that are given out and what they
stand for follow from it.
-/

namespace StagedCompiler

namespace Arena

def next (a : Arena) (n : Node) : Arena :=
  (a.request n.kind n.span).2

def after (a : Arena) (ns : List Node) : Arena :=
  ns.foldl next a

def answers (a : Arena) : List Node → List (Except Diagnostic NodeId)
  | [] => []
  | n :: ns => (a.request n.kind n.span).1 :: (a.next n).answers ns

/-- The requests of a sequence that a store has room for. -/
def admitted (a : Arena) (ns : List Node) : List Node :=
  (ns.filter (·.kind.children.length ≤ a.maxChildren)).take (a.maxNodes - a.size)

theorem after_cons (a : Arena) (n : Node) (ns : List Node) :
    a.after (n :: ns) = (a.next n).after ns :=
  rfl

theorem after_append (a : Arena) (ns ms : List Node) :
    a.after (ns ++ ms) = (a.after ns).after ms :=
  List.foldl_append

theorem answers_append (a : Arena) (ns ms : List Node) :
    a.answers (ns ++ ms) = a.answers ns ++ (a.after ns).answers ms := by
  induction ns generalizing a with
  | nil => rfl
  | cons n ns ih => rw [List.cons_append, answers, answers, ih, List.cons_append, after_cons]

/-- All that a request can come to, and which of the two limits is reported. -/
theorem request_cases (a : Arena) (kind : NodeKind Symbol NodeId) (span : Span) :
    a.maxChildren < kind.children.length ∧
        a.request kind span = (.error
          ((Exceeded.children kind.label kind.children.length a.maxChildren).diagnostic span), a) ∨
      kind.children.length ≤ a.maxChildren ∧ a.maxNodes ≤ a.size ∧
        a.request kind span = (.error ((Exceeded.nodes a.maxNodes).diagnostic span), a) ∨
      kind.children.length ≤ a.maxChildren ∧ a.size < a.maxNodes ∧
        a.request kind span = (.ok a.size, a.append ⟨kind, span⟩) := by
  unfold request refusal? size
  by_cases hmany : a.maxChildren < kind.children.length
  · simp [hmany]
  · by_cases hroom : a.nodes.size < a.maxNodes
    · simp [hmany, hroom, Nat.not_lt.mp hmany]
    · simp [hmany, hroom, Nat.not_lt.mp hmany, Nat.not_lt.mp hroom]

/-- A request is refused for its children or because the store is full. -/
theorem refused_iff {a : Arena} (hsize : a.size ≤ a.maxNodes)
    (kind : NodeKind Symbol NodeId) (span : Span) (d : Diagnostic) :
    (a.request kind span).1 = .error d ↔
      (a.maxChildren < kind.children.length ∨ a.size = a.maxNodes) ∧
        d = (if a.maxChildren < kind.children.length then
            Exceeded.children kind.label kind.children.length a.maxChildren
          else .nodes a.maxNodes).diagnostic span := by
  rcases a.request_cases kind span with ⟨hmany, h⟩ | ⟨hfew, hfull, h⟩ | ⟨hfew, hroom, h⟩
  · simp [h, hmany, eq_comm]
  · simp [h, Nat.not_lt.mpr hfew, Nat.le_antisymm hsize hfull, eq_comm]
  · simp [h, Nat.not_lt.mpr hfew, Nat.ne_of_lt hroom]

/-- A refused request is passed over; one that is not comes next in the store. -/
theorem next_cases (a : Arena) (n : Node) :
    (∃ d, (a.request n.kind n.span).1 = .error d) ∧ a.next n = a ∧
        (∀ ns, a.admitted (n :: ns) = a.admitted ns) ∨
      (a.request n.kind n.span).1 = .ok a.size ∧ a.next n = a.append n ∧
        ∀ ns, a.admitted (n :: ns) = n :: (a.append n).admitted ns := by
  rcases a.request_cases n.kind n.span with ⟨hmany, h⟩ | ⟨hfew, hfull, h⟩ | ⟨hfew, hroom, h⟩
  · refine .inl ⟨⟨_, congrArg Prod.fst h⟩, by rw [next, h], fun ns => ?_⟩
    rw [admitted, List.filter_cons_of_neg (by simpa using hmany), admitted]
  · refine .inl ⟨⟨_, congrArg Prod.fst h⟩, by rw [next, h], fun ns => ?_⟩
    rw [admitted, admitted, Nat.sub_eq_zero_of_le hfull, List.take_zero, List.take_zero]
  · refine .inr ⟨congrArg Prod.fst h, by rw [next, h], fun ns => ?_⟩
    have hleft : a.maxNodes - a.size = a.maxNodes - (a.append n).size + 1 := by
      rw [size_append]
      omega
    rw [admitted, List.filter_cons_of_pos (by simpa using hfew), hleft, List.take_succ_cons]
    rfl

/-- A sequence of requests leaves the admitted ones behind what was there. -/
theorem after_eq (a : Arena) (ns : List Node) :
    a.after ns = { a with nodes := a.nodes ++ (a.admitted ns).toArray } := by
  induction ns generalizing a with
  | nil => simp [after, admitted]
  | cons n ns ih =>
    rcases a.next_cases n with ⟨-, hnext, hadmitted⟩ | ⟨-, hnext, hadmitted⟩
    · rw [after_cons, hnext, ih, hadmitted]
    · rw [after_cons, hnext, ih, hadmitted, append, Array.push_eq_append, Array.append_assoc]
      simp

theorem size_after (a : Arena) (ns : List Node) :
    (a.after ns).size = a.size + (a.admitted ns).length := by
  rw [after_eq]
  exact Array.size_append

/-- The admitted requests are numbered one after the other. -/
theorem numbers_answers (a : Arena) (ns : List Node) :
    (a.answers ns).filterMap Except.toOption = List.range' a.size (a.admitted ns).length := by
  induction ns generalizing a with
  | nil => simp [answers, admitted]
  | cons n ns ih =>
    rcases a.next_cases n with ⟨⟨d, hd⟩, hnext, hadmitted⟩ | ⟨hok, hnext, hadmitted⟩
    · rw [answers, hd, hnext, hadmitted, ← ih]
      rfl
    · rw [answers, hok, hnext, hadmitted, List.length_cons, List.range'_succ, ← a.size_append n,
        ← ih]
      rfl

/-- Later requests leave a node where it is. -/
theorem node_after {a : Arena} {id : NodeId} {n : Node} (h : a.nodes[id]? = some n)
    (ns : List Node) : (a.after ns).nodes[id]? = some n := by
  obtain ⟨hid, -⟩ := Array.getElem?_eq_some_iff.mp h
  rw [after_eq, Array.getElem?_append_left hid, h]

/-- A new store ends with the requests that have few enough children, as many
as its limits allow and 32 bits can number. -/
theorem nodes_after_withLimits (limits : Limits) (ns : List Node) :
    ((withLimits limits).after ns).nodes.toList =
      (ns.filter (·.kind.children.length ≤ limits.maxChildren)).take
        (min limits.maxNodes 4294967295) := by
  rw [after_eq]
  exact Array.toList_append.trans (List.nil_append _)

/-- A refused request leaves the store as it is. -/
theorem next_of_refused {a : Arena} {n : Node} {d : Diagnostic}
    (h : (a.request n.kind n.span).1 = .error d) : a.next n = a := by
  rcases a.next_cases n with ⟨-, hnext, -⟩ | ⟨hok, -, -⟩
  · exact hnext
  · cases hok.symm.trans h

/-- Leaving a refused request out changes nothing for the others. -/
theorem without_refused {a : Arena} {before : List Node} {n : Node} {d : Diagnostic}
    (h : ((a.after before).request n.kind n.span).1 = .error d) (later : List Node) :
    a.after (before ++ n :: later) = a.after (before ++ later) ∧
      a.answers (before ++ n :: later) =
        a.answers before ++ .error d :: (a.after before).answers later := by
  have hnext := next_of_refused h
  constructor
  · rw [after_append, after_cons, hnext, after_append]
  · rw [answers_append, answers, h, hnext]

/-- An accepted request gets the next number, which stands for it from then on. -/
theorem node_of_granted {a : Arena} {n : Node} {id : NodeId}
    (h : (a.request n.kind n.span).1 = .ok id) (later : List Node) :
    id = a.size ∧ a.size < a.maxNodes ∧ (a.after (n :: later)).nodes[id]? = some n := by
  rcases a.request_cases n.kind n.span with ⟨-, h'⟩ | ⟨-, -, h'⟩ | ⟨-, hroom, h'⟩
  · cases h.symm.trans (congrArg Prod.fst h')
  · cases h.symm.trans (congrArg Prod.fst h')
  · cases h.symm.trans (congrArg Prod.fst h')
    have hnext : a.next n = a.append n := by rw [next, h']
    refine ⟨rfl, hroom, ?_⟩
    rw [after_cons, hnext]
    exact node_after node_append_new later

end Arena

/-- Requests to a new store, refused or not: those before, the request `n`, and
those later. It is refused exactly if it has too many children or the store is
full, and of the two the children are reported. A refusal stands at the place of
the request and gives the store back as it was, and leaving the request out
changes neither the store nor what any other one is answered. The store holds
the requests with few enough children, as many as it may. Their numbers count
from zero and fit 32 bits, and a number stands for its request whatever comes
later. -/
theorem arena_append_only (limits : Limits) (before : List Node) (n : Node) (later : List Node) :
    let start := Arena.withLimits limits
    let a := start.after before
    let most := min limits.maxNodes 4294967295
    ((∃ d, (a.request n.kind n.span).1 = .error d) ↔
      limits.maxChildren < n.kind.children.length ∨ a.size = most) ∧
    (∀ d, (a.request n.kind n.span).1 = .error d →
      d.kind = .capacity ∧ d.span = some n.span ∧
      d.message = (if limits.maxChildren < n.kind.children.length then
          Exceeded.children n.kind.label n.kind.children.length limits.maxChildren
        else .nodes most).message ∧
      (a.request n.kind n.span).2 = a ∧
      start.after (before ++ n :: later) = start.after (before ++ later) ∧
      start.answers (before ++ later) = start.answers before ++ a.answers later ∧
      start.answers (before ++ n :: later) =
        start.answers before ++ .error d :: a.answers later) ∧
    a.nodes.toList =
      (before.filter (·.kind.children.length ≤ limits.maxChildren)).take most ∧
    (start.answers before).filterMap Except.toOption = List.range a.size ∧
    ∀ id, (a.request n.kind n.span).1 = .ok id →
      id = a.size ∧ id.toUInt32.toNat = id ∧
      (a.request n.kind n.span).2 = start.after (before ++ [n]) ∧
      (start.after (before ++ n :: later)).nodes[id]? = some n := by
  intro start a most
  have ha : a = { start with nodes := start.nodes ++ (start.admitted before).toArray } :=
    start.after_eq before
  have hlist := Arena.nodes_after_withLimits limits before
  -- A store never holds more than it may, so one without room is exactly full.
  have hsize : a.size ≤ most := by
    rw [Arena.size, ← Array.length_toList, hlist]
    exact List.length_take_le _ _
  have hchildren : a.maxChildren = limits.maxChildren := by rw [ha]; rfl
  have hnodes : a.maxNodes = most := by rw [ha]; rfl
  have herror := Arena.refused_iff (hnodes ▸ hsize) n.kind n.span
  rw [hchildren, hnodes] at herror
  refine ⟨?_, ?_, hlist, ?_, ?_⟩
  · simp only [herror, exists_and_left, exists_eq, and_true]
  · intro d hd
    obtain ⟨-, hreport⟩ := (herror d).mp hd
    obtain ⟨hstore, hanswers⟩ := Arena.without_refused hd later
    have hkept := Arena.next_of_refused hd
    rw [hreport] at hanswers ⊢
    exact ⟨rfl, rfl, rfl, hkept, hstore, start.answers_append before later, hanswers⟩
  · have hempty : start.size = 0 := rfl
    rw [start.numbers_answers, start.size_after, hempty, Nat.zero_add, List.range_eq_range']
  · intro id hok
    obtain ⟨rfl, hroom, hnode⟩ := Arena.node_of_granted hok later
    have hbits : a.size < 4294967296 := by omega
    exact ⟨rfl, UInt32.toNat_ofNat_of_lt hbits, (start.after_append before [n]).symm,
      start.after_append before (n :: later) ▸ hnode⟩

/-- The second request has too many children; the fourth has, too, when the
store is full already. -/
example : ((Arena.withLimits { maxNodes := 2, maxChildren := 1 }).answers
      [⟨.breakStmt, {}⟩, ⟨.index 0 0, {}⟩, ⟨.exprStmt 0, {}⟩, ⟨.call 0 [0], {}⟩,
        ⟨.continueStmt, {}⟩]) =
    [.ok 0, .error ((Exceeded.children "Index" 2 1).diagnostic {}), .ok 1,
      .error ((Exceeded.children "Call" 2 1).diagnostic {}),
      .error ((Exceeded.nodes 2).diagnostic {})] := rfl

end StagedCompiler
