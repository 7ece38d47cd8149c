import StagedCompiler.Target.Expr

/-!
Statements as lines of C. One state goes through all statements of a unit: the
names known so far, the lines written, what there is to say about them, the
depth of the next line, and whether it belongs to `main`.
-/

namespace StagedCompiler.Target

structure WriterState where
  scope : Scope := {}
  lines : Array String := #[]
  notes : Array Note := #[]

abbrev Writer := StateM WriterState

namespace Writer

/-- A line of text at the given depth, four blanks a level. -/
def line (depth : Nat) (text : String) : Writer Unit :=
  modify fun w =>
    { w with
      lines := w.lines.push (String.ofList (List.replicate (4 * depth) ' ') ++ text ++ "\n") }

def note (ns : List Note) : Writer Unit :=
  modify fun w => { w with notes := w.notes ++ ns }

def declareVar (name : String) (t : CType) : Writer Unit :=
  modify fun w => { w with scope := w.scope.declareVar name t }

end Writer

structure GeneratorState extends WriterState where
  indent : Nat := 0
  inMain : Bool := false

/-- A writer that keeps the depth of its lines by itself. -/
abbrev Generator := StateM GeneratorState

namespace Generator

def lift {α : Type} (w : Writer α) : Generator α := fun g =>
  let r := w.run g.toWriterState
  (r.1, { g with toWriterState := r.2 })

def write (text : String) : Generator Unit :=
  modify fun g => { g with lines := g.lines.push text }

def line (text : String) : Generator Unit := do
  lift (Writer.line (← get).indent text)

def indented (m : Generator Unit) : Generator Unit := do
  modify fun g => { g with indent := g.indent + 1 }
  m
  modify fun g => { g with indent := g.indent - 1 }

end Generator

/-- The C type of a type tree, an integer if it is none. -/
def lower (t : Tree) : CType :=
  (CType.ofTree? t).getD .int

/-- What there is to say about a tree that should be a type. -/
def lowerNotes (t : Tree) : List Note :=
  if (CType.ofTree? t).isSome then []
  else [.unsupported (.misplaced t.kind.label .type) t.span]

open Writer (note declareVar)

/-- A variable's type: as declared, else as told from its value, else an
integer. -/
def letType (s : Scope) (type init : Option Tree) : CType :=
  match type, init with
  | some t, _ => lower t
  | none, some e => (infer s e).getD .int
  | none, none => .int

def letTypeNotes (s : Scope) (name : String) (type init : Option Tree) : List Note :=
  match type, init with
  | some t, _ => lowerNotes t
  | none, some e => if (infer s e).isSome then [] else [.untypedLet name]
  | none, none => []

/-- A variable is known to the lines after its own. -/
def letStmt (depth : Nat) (name : String) (type init : Option Tree) : Writer Unit := do
  let s := (← get).scope
  let t := letType s type init
  note (letTypeNotes s name type init)
  match init with
  | some e =>
    note (exprNotes e)
    Writer.line depth (t.declare name ++ " = " ++ expr s true e ++ ";")
  | none => Writer.line depth (t.declare name ++ ";")
  declareVar name t

def written (t : Tree) : Writer String := do
  note (exprNotes t)
  return expr (← get).scope false t

def writtenCondition (t : Tree) : Writer String := do
  note (exprNotes t)
  return condition (← get).scope t

def forHead (var start comparison stop : String) : String :=
  "for (long long " ++ var ++ " = " ++ start ++ "; " ++ var ++ " " ++ comparison ++ " " ++ stop ++
    "; " ++ var ++ "++) \x7b"

open Generator

mutual

/-- A statement. A block that is the body of another statement (`asBody`) has
its braces on the lines of that statement. -/
def emitStmt (asBody : Bool) : Tree → Generator Unit
  | .node (.letStmt name _ type init) _ => do lift (letStmt (← get).indent name type init)
  | .node (.assign target op value) _ => do
    let target ← lift (written target)
    let value ← lift (written value)
    line (target ++ " " ++ op.text ++ " " ++ value ++ ";")
  | .node (.returnStmt none) _ => do line (if (← get).inMain then "return 0;" else "return;")
  | .node (.returnStmt (some value)) _ => do
    line ("return " ++ (← lift (written value)) ++ ";")
  | .node (.exprStmt e) _ => do line ((← lift (written e)) ++ ";")
  | .node (.ifStmt cond thenBranch elseBranch) _ => do
    line ("if (" ++ (← lift (writtenCondition cond)) ++ ") \x7b")
    indented (emitStmt true thenBranch)
    emitElse elseBranch
    line "\x7d"
  | .node (.whileStmt cond body) _ => do
    line ("while (" ++ (← lift (writtenCondition cond)) ++ ") \x7b")
    indented (emitStmt true body)
    line "\x7d"
  | .node (.forStmt var (.node (.range start stop inclusive) _) body) _ => do
    let start ← lift (written start)
    let stop ← lift (written stop)
    lift (declareVar var .int)
    line (forHead var start (if inclusive then "<=" else "<") stop)
    indented (emitStmt true body)
    line "\x7d"
  | .node (.forStmt _ iter _) _ => lift (note [.unsupported .forOverNonRange iter.span])
  | .node .breakStmt _ => line "break;"
  | .node .continueStmt _ => line "continue;"
  | .node (.block body) _ =>
    if asBody then emitStmts body
    else do
      line "\x7b"
      indented (emitStmts body)
      line "\x7d"
  | .node kind span => lift (note [.unsupported (.misplaced kind.label .statement) span])

def emitStmts : List Tree → Generator Unit
  | [] => pure ()
  | t :: ts => do
    emitStmt false t
    emitStmts ts

def emitElse : Option Tree → Generator Unit
  | none => pure ()
  | some (.node (.ifStmt cond thenBranch elseBranch) _) => do
    line ("\x7d else if (" ++ (← lift (writtenCondition cond)) ++ ") \x7b")
    indented (emitStmt true thenBranch)
    emitElse elseBranch
  | some t => do
    line "\x7d else \x7b"
    indented (emitStmt true t)

end

end StagedCompiler.Target
