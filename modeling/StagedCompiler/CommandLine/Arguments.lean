import StagedCompiler.Options

/-!
The arguments of the command line: a command, a source file, and options in
any order. What cannot be understood is a usage error, of which nothing more
is said here.
-/

namespace StagedCompiler.CommandLine

inductive CommandName where
  | compile | tokens | parse
deriving DecidableEq

inductive TreeFormat where
  | pretty | json
deriving DecidableEq

inductive Flag where
  | strict | embedSupport
  | config | maxTokens | maxNodes | maxChildren | maxDepth | output | format
deriving DecidableEq

namespace Flag

def takesValue : Flag → Bool
  | strict | embedSupport => false
  | _ => true

def common : List (String × Flag) :=
  [("strict", strict), ("config", config), ("max-tokens", maxTokens), ("max-nodes", maxNodes),
   ("max-children", maxChildren), ("max-depth", maxDepth)]

def table : CommandName → List (String × Flag)
  | .compile => common ++ [("output", output), ("embed-runtime", embedSupport)]
  | .tokens => common
  | .parse => common ++ [("format", format)]

def letters : CommandName → List (Char × Flag)
  | .compile => [('o', output)]
  | .tokens | .parse => []

end Flag

/-- An unsigned 64-bit number; a plus sign may stand before it. -/
def size? (text : String) : Option Nat :=
  let cs := text.toList
  let digits := if cs.head? = some '+' then cs.drop 1 else cs
  if digits.isEmpty || !digits.all Char.isDigit then none
  else
    let n := digits.foldl (fun n d => 10 * n + (d.toNat - 48)) 0
    if n < UInt64.size then some n else none

def path? (text : String) : Option String :=
  if text = "" then none else some text

def format? (text : String) : Option TreeFormat :=
  if text = "pretty" then some .pretty
  else if text = "json" then some .json
  else none

structure OptionArgs where
  strict : Bool := false
  config : Option String := none
  maxTokens : Option Nat := none
  maxNodes : Option Nat := none
  maxChildren : Option Nat := none
  maxDepth : Option Nat := none
  embedSupport : Bool := false

structure Given where
  file : Option String := none
  output : Option String := none
  format : Option TreeFormat := none
  opts : OptionArgs := {}
  verbosity : Nat := 0

def fill {α : Type} (old value : Option α) : Option (Option α) :=
  match old, value with
  | none, some x => some (some x)
  | _, _ => none

def turnOn (old : Bool) : Option Bool :=
  if old then none else some true

/-- Take an option with its value, unless it was given before or the value
cannot be read. The value of a switch is not looked at. -/
def Given.set (g : Given) (flag : Flag) (value : String) : Option Given := do
  match flag with
  | .strict => return { g with opts.strict := ← turnOn g.opts.strict }
  | .embedSupport => return { g with opts.embedSupport := ← turnOn g.opts.embedSupport }
  | .config => return { g with opts.config := ← fill g.opts.config (path? value) }
  | .maxTokens => return { g with opts.maxTokens := ← fill g.opts.maxTokens (size? value) }
  | .maxNodes => return { g with opts.maxNodes := ← fill g.opts.maxNodes (size? value) }
  | .maxChildren => return { g with opts.maxChildren := ← fill g.opts.maxChildren (size? value) }
  | .maxDepth => return { g with opts.maxDepth := ← fill g.opts.maxDepth (size? value) }
  | .output => return { g with output := ← fill g.output (path? value) }
  | .format => return { g with format := ← fill g.format (format? value) }

def Given.setFile (g : Given) (arg : String) : Option Given := do
  return { g with file := ← fill g.file (path? arg) }

inductive Reading (α : Type) where
  | done (result : α)
  /-- The arguments ask for the usage text. -/
  | help
  /-- The arguments cannot be understood. -/
  | wrong

def Reading.ofOption {α : Type} : Option α → Reading α
  | some x => .done x
  | none => .wrong

inductive Shape where
  | endOfOptions
  /-- An argument `--name` or `--name=value`. -/
  | long (name : List Char) (value : Option String)
  /-- A cluster of flags `-abc`. -/
  | short (letters : List Char)
  | plain

def Shape.of (arg : String) : Shape :=
  match arg.toList with
  | ['-', '-'] => .endOfOptions
  | '-' :: '-' :: rest =>
    let name := rest.takeWhile (· != '=')
    .long name (if name.length = rest.length then none
      else some (String.ofList (rest.drop (name.length + 1))))
  | '-' :: c :: rest => .short (c :: rest)
  | _ => .plain

/-- A cluster of letters: the options given so far and, if the last letter
wants a value that is not attached to it, that option. -/
def readLetters (name : CommandName) (g : Given) : List Char → Reading (Given × Option Flag)
  | [] => .done (g, none)
  | c :: rest =>
    if c = 'v' then readLetters name { g with verbosity := g.verbosity + 1 } rest
    else if c = 'h' then .help
    else
      match (Flag.letters name).lookup c, rest with
      | none, _ => .wrong
      | some flag, [] => .done (g, some flag)
      | some flag, '=' :: value => .ofOption ((g.set flag (String.ofList value)).map (·, none))
      | some flag, value => .ofOption ((g.set flag (String.ofList value)).map (·, none))

def readLong (name : CommandName) (g : Given) (option : List Char) (value : Option String) :
    Reading (Given × Option Flag) :=
  let option := String.ofList option
  if option = "verbose" ∧ value.isNone then .done ({ g with verbosity := g.verbosity + 1 }, none)
  else if option = "help" ∧ value.isNone then .help
  else
    match (Flag.table name).lookup option, value with
    | none, _ => .wrong
    | some flag, some value =>
      if flag.takesValue then .ofOption ((g.set flag value).map (·, none)) else .wrong
    | some flag, none =>
      if flag.takesValue then .done (g, some flag) else .ofOption ((g.set flag "").map (·, none))

/-- The arguments behind a command, each of which is judged before the next one
is looked at. An option that waits for its value takes the next argument, unless
that looks like an option itself. -/
def readArgs (name : CommandName) (g : Given) (waiting : Option Flag) :
    List String → Reading Given
  | [] => if waiting.isSome then .wrong else .done g
  | arg :: args =>
    match Shape.of arg, waiting with
    | .plain, some flag =>
      match g.set flag arg with
      | some g => readArgs name g none args
      | none => .wrong
    | .plain, none =>
      match g.setFile arg with
      | some g => readArgs name g none args
      | none => .wrong
    | .endOfOptions, none => .ofOption (args.foldlM Given.setFile g)
    | .long option value, none =>
      match readLong name g option value with
      | .done (g, waiting) => readArgs name g waiting args
      | .help => .help
      | .wrong => .wrong
    | .short letters, none =>
      match readLetters name g letters with
      | .done (g, waiting) => readArgs name g waiting args
      | .help => .help
      | .wrong => .wrong
    | _, some _ => .wrong

inductive Command where
  | compile (file : String) (output : Option String) (opts : OptionArgs)
  | tokens (file : String) (opts : OptionArgs)
  | parse (file : String) (format : TreeFormat) (opts : OptionArgs)

def Command.file : Command → String
  | compile file .. | tokens file _ | parse file .. => file

structure Invocation where
  verbosity : Nat
  command : Command

def Given.command? (g : Given) (name : CommandName) : Option Command :=
  g.file.map fun file =>
    match name with
    | .compile => .compile file g.output g.opts
    | .tokens => .tokens file g.opts
    | .parse => .parse file (g.format.getD .pretty) g.opts

def CommandName.of? (word : String) : Option CommandName :=
  if word = "compile" then some .compile
  else if word = "tokens" then some .tokens
  else if word = "parse" then some .parse
  else none

def readHelp {α : Type} : List String → Reading α
  | [] => .help
  | [topic] => if topic = "help" || (CommandName.of? topic).isSome then .help else .wrong
  | _ => .wrong

/-- The arguments, with `verbosity` requests for more detail before them. If
detail is asked for behind the command as well, only that counts. -/
def readCommand (verbosity : Nat) : List String → Reading Invocation
  | [] => .wrong
  | arg :: args =>
    match Shape.of arg with
    | .plain =>
      if arg = "help" then readHelp args
      else
        match CommandName.of? arg with
        | none => .wrong
        | some name =>
          match readArgs name {} none args with
          | .done g =>
            let verbosity := if g.verbosity = 0 then verbosity else g.verbosity
            .ofOption ((g.command? name).map (⟨verbosity, ·⟩))
          | .help => .help
          | .wrong => .wrong
    | .long option none =>
      if String.ofList option = "verbose" then readCommand (verbosity + 1) args
      else if String.ofList option = "help" then .help
      else .wrong
    | .short letters =>
      if letters.all (· == 'v') then readCommand (verbosity + letters.length) args
      else if letters.dropWhile (· == 'v') |>.head? |>.any (· == 'h') then .help
      else .wrong
    | _ => .wrong

def Invocation.read (args : List String) : Reading Invocation :=
  readCommand 0 args

end StagedCompiler.CommandLine
