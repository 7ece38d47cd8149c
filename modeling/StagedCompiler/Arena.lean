import StagedCompiler.Diagnostic
import StagedCompiler.Interner
import StagedCompiler.Node
import StagedCompiler.Options

/-!
The store of syntax nodes. It is append-only and bounded: a node is numbered
by its place, and one that would exceed a limit is refused and changes
nothing.
-/

namespace StagedCompiler

/-- The place of a node in an `Arena`. -/
abbrev NodeId := Nat

structure Node where
  kind : NodeKind Symbol NodeId
  span : Span
deriving DecidableEq

structure Arena where
  nodes : Array Node := #[]
  maxNodes : Nat
  maxChildren : Nat

namespace Arena

def withLimits (limits : Limits) : Arena where
  maxNodes := limits.clamped.maxNodes
  maxChildren := limits.maxChildren

def size (a : Arena) : Nat :=
  a.nodes.size

/-- Why a node cannot join the store, if it cannot. Too many children are
reported before too many nodes. -/
def refusal? (a : Arena) (kind : NodeKind Symbol NodeId) : Option Exceeded :=
  let count := kind.children.length
  if a.maxChildren < count then some (.children kind.label count a.maxChildren)
  else if a.nodes.size < a.maxNodes then none
  else some (.nodes a.maxNodes)

def append (a : Arena) (n : Node) : Arena :=
  { a with nodes := a.nodes.push n }

/-- Append a node and give its number, unless a limit is exceeded. The store that
is left stands beside the answer, whatever that is. -/
def request (a : Arena) (kind : NodeKind Symbol NodeId) (span : Span) :
    Except Diagnostic NodeId × Arena :=
  match a.refusal? kind with
  | some e => (.error (e.diagnostic span), a)
  | none => (.ok a.nodes.size, a.append ⟨kind, span⟩)

/-- A request whose store is of use only if it is granted. -/
def alloc (a : Arena) (kind : NodeKind Symbol NodeId) (span : Span) :
    Except Diagnostic (NodeId × Arena) :=
  let (answer, left) := a.request kind span
  answer.map (·, left)

end Arena

end StagedCompiler
