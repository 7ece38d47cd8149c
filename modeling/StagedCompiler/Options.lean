/-!
What a caller chooses about a compilation: how diagnostics are treated, how
large a unit may grow, and what is written for the library that the generated
C calls.
-/

namespace StagedCompiler

inductive Mode where
  /-- A stage with anything to report fails. -/
  | strict
  /-- A stage reports what it met beside its result. -/
  | lenient
deriving DecidableEq, Inhabited

inductive SupportForm where
  /-- Prototypes only; the library is linked separately. -/
  | declarations
  /-- Definitions, so that the output compiles on its own. -/
  | embedded
deriving DecidableEq, Inhabited

structure Limits where
  /-- Tokens, the closing one included. -/
  maxTokens : Nat := 1048576
  /-- Nodes, whether or not they end up in the tree. -/
  maxNodes : Nat := 1048576
  /-- Children that one node may have. -/
  maxChildren : Nat := 65536
  /-- Nesting of types, blocks and expressions. -/
  maxDepth : Nat := 256
deriving DecidableEq

/-- The largest count for which 32-bit ids suffice. -/
def Limits.maxIds : Nat := UInt32.size - 1

/-- Token and node limits never exceed what 32-bit ids can number. -/
def Limits.clamped (l : Limits) : Limits :=
  { l with maxTokens := min l.maxTokens maxIds, maxNodes := min l.maxNodes maxIds }

structure Options where
  mode : Mode := .lenient
  limits : Limits := {}
  support : SupportForm := .declarations
deriving DecidableEq

def Options.isStrict (o : Options) : Bool :=
  o.mode = .strict

end StagedCompiler
