import StagedCompiler.Options
import StagedCompiler.Target.Stmt

/-!
A whole C unit: headers, the support library, struct definitions, prototypes,
and function definitions in source order. The generator goes over the items
four times with one state, which it sets up for each function.
-/

namespace StagedCompiler.Target

def paramTypes (params : List Tree) : List (String × Tree) :=
  params.filterMap fun
    | .node (.param name _ type) _ => some (name, type)
    | _ => none

def fieldTypes (fields : List Tree) : List (String × Tree) :=
  fields.filterMap fun
    | .node (.field name type) _ => some (name, type)
    | _ => none

/-- The C result type of a function; `main` gives an exit code. -/
def retType (name : String) (ret : Option Tree) : CType :=
  if name = "main" then .named "int" else (ret.map lower).getD .void

def declareItem (s : Scope) : Tree → Scope
  | .node (.struct name fields) _ =>
    s.declareStruct name ((fieldTypes fields).map fun (field, type) => (field, lower type))
  | .node (.function name _ params ret _) _ =>
    s.declareFn name ⟨(paramTypes params).map fun p => lower p.2, retType name ret⟩
  | _ => s

def typesNotes (types : List (String × Tree)) : List Note :=
  types.flatMap fun (_, type) => lowerNotes type

def retNotes (name : String) (ret : Option Tree) : List Note :=
  if name = "main" then [] else ret.toList.flatMap lowerNotes

def declarationNotes : Tree → List Note
  | .node (.struct _ fields) _ => typesNotes (fieldTypes fields)
  | .node (.function name _ params ret _) _ =>
    typesNotes (paramTypes params) ++ retNotes name ret
  | _ => []

def signature (name : String) (params : List Tree) (ret : Option Tree) : String :=
  if name = "main" then "int main(void)"
  else
    let shown := (paramTypes params).map fun (param, type) => (lower type).declare param
    (retType name ret).render ++ " " ++ name ++ "(" ++
      (if shown.isEmpty then "void" else ", ".intercalate shown) ++ ")"

def signatureNotes (name : String) (params : List Tree) (ret : Option Tree) : List Note :=
  if name = "main" then [] else retNotes name ret ++ typesNotes (paramTypes params)

/-- Declare parameters and say what there is to say about their types. -/
def declareParams : List (String × Tree) → Writer Unit
  | [] => pure ()
  | (param, type) :: params => do
    Writer.note (lowerNotes type)
    Writer.declareVar param (lower type)
    declareParams params

def prototypes (items : List Tree) : List String :=
  items.filterMap fun
    | .node (.function name _ params ret _) _ =>
      if name = "main" then none else some (signature name params ret ++ ";")
    | _ => none

def prototypeNotes : Tree → List Note
  | .node (.function name _ params ret _) _ => signatureNotes name params ret
  | _ => []

def supportText : SupportForm → String
  | .declarations => Support.declarations
  | .embedded => Support.embedded

/-- C text with what there is to say about it, in the order in which the
generator goes over the unit. -/
structure Generated where
  c : String
  notes : List Note

def Generated.diagnostics (g : Generated) : Diagnostics :=
  (g.notes.filterMap Note.diagnostic?).toArray

open Generator

/-- Learn of an item before anything is written. -/
def collectItem (item : Tree) : Generator Unit := do
  lift (Writer.note (declarationNotes item))
  modify fun g => { g with scope := declareItem g.scope item }

/-- The definition of a struct, with the fields declared last under its name. -/
def emitStruct (name : String) : Generator Unit := do
  line ("typedef struct " ++ name ++ " \x7b")
  let fields := ((← get).scope.fields? name).getD []
  indented (fields.forM fun (field, type) => line (type.declare field ++ ";"))
  line ("\x7d " ++ name ++ ";")
  write "\n"

def emitTypedef : Tree → Generator Unit
  | .node (.struct name _) _ => emitStruct name
  | _ => pure ()

/-- All prototypes, and a blank line behind them. -/
def emitPrototypes (items : List Tree) : Generator Unit := do
  items.forM fun item => lift (Writer.note (prototypeNotes item))
  let protos := prototypes items
  unless protos.isEmpty do
    protos.forM fun proto => write (proto ++ "\n")
    write "\n"

def emitDefinition (name : String) (params : List Tree) (ret : Option Tree) (body : Tree) :
    Generator Unit := do
  lift (declareParams (paramTypes params))
  lift (Writer.note (signatureNotes name params ret))
  line (signature name params ret ++ " \x7b")
  indented (emitStmt true body)
  if name = "main" then indented (line "return 0;")
  line "\x7d"
  write "\n"

/-- A function forgets the variables of the one before it. -/
def emitFunction (name : String) (params : List Tree) (ret : Option Tree) (body : Tree) :
    Generator Unit := do
  modify fun g => { g with scope := g.scope.enterFunction, inMain := name = "main" }
  emitDefinition name params ret body

def emitItem : Tree → Generator Unit
  | .node (.function name _ params ret body) _ => emitFunction name params ret body
  | .node (.importPath path) _ => lift (Writer.note [.skippedImport path])
  | .node (.struct ..) _ => pure ()
  | .node kind span => lift (Writer.note [.unsupported (.misplaced kind.label .topLevel) span])

def emitUnit (items : List Tree) (support : SupportForm) : Generator Unit := do
  items.forM collectItem
  write (Support.headers ++ "\n")
  write (supportText support ++ "\n")
  items.forM emitTypedef
  emitPrototypes items
  items.forM emitItem

def render (program : Tree) (support : SupportForm) : Generated :=
  let g := ((emitUnit program.items support).run {}).2
  { c := String.join g.lines.toList, notes := g.notes.toList }

/-- A strict generator leaves nothing out. -/
def Generated.accept (g : Generated) (opts : Options) : Except Diagnostics Generated :=
  if opts.isStrict && !g.diagnostics.isEmpty then .error g.diagnostics else .ok g

/-- The C text of a unit, as far as the options accept it. -/
def generate (ast : Ast) (opts : Options) : Except Diagnostics Generated :=
  (render ast.tree opts.support).accept opts

end StagedCompiler.Target
