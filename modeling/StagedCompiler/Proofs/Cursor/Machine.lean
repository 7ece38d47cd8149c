import StagedCompiler.Parser.Program

/-!
The reader of token streams as a machine with registers: a cursor into the
token array, a counter of the open levels, and a flag for headers. Nodes and
names are known by number only, and nothing is looked up with a default. A run
has no result (`none`) if it looks up a token, a node or a name that is not
there, or if it would count below zero. Every change of the registers is noted
down.

Neither tokens nor levels bound the loops and the recursion here. The bound is
a number that each round and each call lowers and that leaves the run without
a result once it is zero; a run ends if it has a result for some such number.
-/

namespace StagedCompiler.Cursor

/-- What the registers hold at one time. -/
structure Moment where
  cursor : Nat
  depth : Nat
  /-- The diagnostic with which the machine is giving up, if it is. -/
  fatal : Option Diagnostic
deriving DecidableEq

structure Setup where
  tokens : Array Token
  mode : Mode
  maxDepth : Nat

structure State where
  cursor : Nat := 0
  depth : Nat := 0
  inHeader : Bool := false
  fatal : Option Diagnostic := none
  arena : Arena
  names : Interner
  diagnostics : Diagnostics
  /-- The latest moment first. -/
  trace : List Moment := []

def State.now (s : State) : Moment :=
  ⟨s.cursor, s.depth, s.fatal⟩

def State.note (s : State) : State :=
  { s with trace := s.now :: s.trace }

/-- A machine gives up with the result `none` and the diagnostic in `fatal`. -/
abbrev Machine := ReaderT Setup (OptionT (StateT State Option))

/-! ### Registers -/

def stuck {α : Type} : Machine α :=
  fun _ _ => none

def move (change : State → State) : Machine Unit :=
  fun _ s => some (some (), (change s).note)

def giveUp {α : Type} (d : Diagnostic) : Machine α :=
  fun _ s => some (none, { s with fatal := some d }.note)

def current : Machine Token :=
  fun u s => u.tokens[s.cursor]?.map fun t => (some t, s)

def peek (n : Nat) : Machine Token :=
  fun u s => u.tokens[min (s.cursor + n) (u.tokens.size - 1)]?.map fun t => (some t, s)

def advance : Machine Unit :=
  fun u s =>
    if s.cursor + 1 < u.tokens.size then move (fun s => { s with cursor := s.cursor + 1 }) u s
    else some (some (), s)

def isAt (k : TokenKind) : Machine Bool :=
  return decide ((← current).kind = k)

def eat (k : TokenKind) : Machine Bool := do
  if ← isAt k then
    advance
    return true
  return false

def fault (f : ParseFault) (span : Span) : Machine Unit :=
  fun u s =>
    let d : Diagnostic := ⟨.parse, f.message, some span⟩
    match u.mode with
    | .strict => giveUp d u s
    | .lenient => some (some (), { s with diagnostics := s.diagnostics.push d })

def expect (k : TokenKind) : Machine Span := do
  let t ← current
  if t.kind = k then
    advance
  else
    fault (.expected k.describe t.kind) t.span
  return t.span

def intern (text : String) : Machine Symbol :=
  fun _ s =>
    let (sym, names) := s.names.intern text
    some (some sym, { s with names })

def resolve (sym : Symbol) : Machine String :=
  fun _ s => (s.names.resolve? sym).map fun text => (some text, s)

def expectIdent : Machine (Symbol × Span) := do
  let t ← current
  match t.kind with
  | .ident sym =>
    advance
    return (sym, t.span)
  | found =>
    fault (.expected "identifier" found) t.span
    return (← intern Parser.missingName, t.span)

def build (kind : NodeKind Symbol NodeId) (span : Span) : Machine NodeId :=
  fun u s =>
    match s.arena.request kind span with
    | (.error d, arena) => giveUp d u { s with arena }
    | (.ok id, arena) => some (some id, { s with arena })

def node (id : NodeId) : Machine Node :=
  fun _ s => s.arena.nodes[id]?.map fun n => (some n, s)

def spanOf (id : NodeId) : Machine Span :=
  return (← node id).span

/-- Open a level. The counter is raised in any case, so it is one too high when
the machine gives up here. -/
def enter : Machine Unit :=
  fun u s =>
    let s := { s with depth := s.depth + 1 }
    if u.maxDepth < s.depth then
      u.tokens[s.cursor]?.bind fun t =>
        giveUp ((Exceeded.depth u.maxDepth).diagnostic t.span) u s
    else some (some (), s.note)

def ending {α : Type} (last : State → Option State) (body : Machine α) : Machine α :=
  fun u s => do
    let (result, s) ← body u s
    return (result, ← last s)

def leave (s : State) : Option State :=
  match s.depth with
  | 0 => none
  | depth + 1 => some { s with depth }.note

def level {α : Type} (body : Machine α) : Machine α := do
  enter
  ending leave body

def restoring {α : Type} (body : Machine α) : Machine α :=
  fun u s => ending (fun s' => some { s' with depth := s.depth }.note) body u s

def withHeader {α : Type} (inHeader : Bool) (body : Machine α) : Machine α :=
  fun u s =>
    ending (fun s' => some { s' with inHeader := s.inHeader }) body u { s with inHeader }

def isInHeader : Machine Bool :=
  fun _ s => some (some s.inHeader, s)

def cursor : Machine Nat :=
  fun _ s => some (some s.cursor, s)

/-! ### Lists and types -/

def entries {α : Type} (close : TokenKind) (item : Machine α) :
    Nat → Array α → Machine (List α)
  | 0, _ => stuck
  | bound + 1, done => do
    if (← isAt close) || (← isAt .eof) then return done.toList
    let x ← item
    if ← eat (.punct .comma) then entries close item bound (done.push x)
    else return (done.push x).toList

def after {α : Type} (k : TokenKind) (item : Machine α) : Machine (Option α) := do
  if ← eat k then return some (← item) else return none

def arrayLength : Machine Nat := do
  let t ← current
  let missing : Machine Nat := do
    fault (.expected "array length" t.kind) t.span
    return 0
  match t.kind with
  | .int n =>
    if 0 ≤ n then
      advance
      return n.toNat
    else missing
  | _ => missing

def type : Nat → Machine NodeId
  | 0 => stuck
  | bound + 1 => level do
    let t ← current
    match t.kind with
    | .punct .amp =>
      advance
      let mutable ← eat (.keyword .mutKw)
      let inner ← type bound
      let innerSpan ← spanOf inner
      build (.refType mutable inner) (t.span.to innerSpan)
    | .punct .lbracket =>
      advance
      let elem ← type bound
      let _ ← expect (.punct .semicolon)
      let len ← arrayLength
      let close ← expect (.punct .rbracket)
      build (.arrayType elem len) (t.span.to close)
    | .ident sym =>
      advance
      match PrimType.ofName? (← resolve sym) with
      | some prim => build (.primType prim) t.span
      | none => build (.namedType sym) t.span
    | found =>
      fault (.expected "type" found) t.span
      build (.namedType (← intern Parser.missingName)) t.span

/-! ### Expressions -/

def isAtStructBody : Machine Bool := do
  if ← isAt (.punct .lbrace) then
    match (← peek 1).kind, (← peek 2).kind with
    | .punct .rbrace, _ => return true
    | .ident _, .punct .colon => return true
    | _, _ => return false
  else return false

def fieldInit (nested : Machine NodeId) : Machine (FieldInit Symbol NodeId) := do
  let (name, span) ← expectIdent
  let _ ← expect (.punct .colon)
  let value ← nested
  let valueSpan ← spanOf value
  return ⟨name, value, span.to valueSpan⟩

def structLiteral (bound : Nat) (nested : Machine NodeId) (name : Symbol) (start : Span) :
    Machine NodeId := do
  let _ ← expect (.punct .lbrace)
  let fields ← entries (.punct .rbrace) (fieldInit nested) bound #[]
  let close ← expect (.punct .rbrace)
  build (.structLit name fields) (start.to close)

def arrayLiteral (bound : Nat) (nested : Machine NodeId) : Machine NodeId := do
  let start ← expect (.punct .lbracket)
  let elems ← entries (.punct .rbracket) nested bound #[]
  let close ← expect (.punct .rbracket)
  build (.arrayLit elems) (start.to close)

def literal (kind : NodeKind Symbol NodeId) (span : Span) : Machine NodeId := do
  advance
  build kind span

def primary (bound : Nat) (nested : Machine NodeId) : Machine NodeId := do
  let t ← current
  match t.kind.literal? with
  | some kind => literal kind t.span
  | none =>
    match t.kind with
    | .ident sym =>
      advance
      if !(← isInHeader) && (← isAtStructBody) then structLiteral bound nested sym t.span
      else build (.ident sym) t.span
    | .punct .lparen =>
      advance
      let inner ← nested
      let _ ← expect (.punct .rparen)
      return inner
    | .punct .lbracket => arrayLiteral bound nested
    | found =>
      fault (.expected "expression" found) t.span
      build (.int 0) t.span

def applyPrefix (operand : Machine NodeId) (op : UnaryOp) (start : Span) : Machine NodeId := do
  let x ← operand
  let xSpan ← spanOf x
  build (.unary op x) (start.to xSpan)

def prefixed (operand bare : Machine NodeId) : Machine NodeId := do
  let t ← current
  match t.kind with
  | .punct .amp =>
    advance
    let op := if ← eat (.keyword .mutKw) then UnaryOp.refMut else .ref
    applyPrefix operand op t.span
  | .punct .andAnd =>
    advance
    let inner ← applyPrefix operand .ref (← current).span
    let innerSpan ← spanOf inner
    build (.unary .ref inner) (t.span.to innerSpan)
  | kind =>
    match Parser.prefixOp? kind with
    | some op =>
      advance
      applyPrefix operand op t.span
    | none => bare

def postfixStep (bound : Nat) (nested : Machine NodeId) (base : NodeId) : Machine NodeId := do
  let t ← current
  match t.kind with
  | .punct .lparen =>
    advance
    let args ← entries (.punct .rparen) nested bound #[]
    let close ← expect (.punct .rparen)
    let baseSpan ← spanOf base
    build (.call base args) (baseSpan.to close)
  | .punct .lbracket =>
    advance
    let index ← nested
    let close ← expect (.punct .rbracket)
    let baseSpan ← spanOf base
    build (.index base index) (baseSpan.to close)
  | .punct .dot =>
    advance
    let (field, close) ← expectIdent
    let baseSpan ← spanOf base
    build (.fieldAccess base field) (baseSpan.to close)
  | _ => return base

mutual

def unary : Nat → Machine NodeId
  | 0 => stuck
  | bound + 1 => level (prefixed (unary bound) (postfixed bound))

def postfixed : Nat → Machine NodeId
  | 0 => stuck
  | bound + 1 => restoring do
    postfixLoop bound (← primary bound (withHeader false (binary bound 1)))

def postfixLoop : Nat → NodeId → Machine NodeId
  | 0, _ => stuck
  | bound + 1, base => do
    if Parser.opensPostfix (← current).kind then
      enter
      postfixLoop bound (← postfixStep bound (withHeader false (binary bound 1)) base)
    else return base

/-- An expression of operators that bind at least as tight as `least`. -/
def binary : Nat → Nat → Machine NodeId
  | 0, _ => stuck
  | bound + 1, least => restoring do infixLoop bound least (← unary bound)

def infixLoop : Nat → Nat → NodeId → Machine NodeId
  | 0, _, _ => stuck
  | bound + 1, least, lhs => do
    match (← current).kind.infixOp? with
    | some (precedence, op) =>
      if precedence < least then return lhs
      else
        enter
        advance
        let rhs ← binary bound (precedence + 1)
        let lhsSpan ← spanOf lhs
        let rhsSpan ← spanOf rhs
        let whole ← build (op.node lhs rhs) (lhsSpan.to rhsSpan)
        infixLoop bound least whole
    | none => return lhs

end

def expr (bound : Nat) : Machine NodeId :=
  binary bound 1

def header (bound : Nat) : Machine NodeId :=
  withHeader true (expr bound)

/-! ### Statements -/

def letStmt (bound : Nat) : Machine NodeId := do
  let start ← expect (.keyword .letKw)
  let mutable ← eat (.keyword .mutKw)
  let (name, _) ← expectIdent
  let ty ← after (.punct .colon) (type bound)
  let init ← after (.punct .eq) (expr bound)
  let close ← expect (.punct .semicolon)
  build (.letStmt name mutable ty init) (start.to close)

def returnStmt (bound : Nat) (start : Span) : Machine NodeId := do
  advance
  let bare := (← isAt (.punct .semicolon)) || (← isAt (.punct .rbrace))
  let value ← if bare then pure none else some <$> expr bound
  let close ← expect (.punct .semicolon)
  build (.returnStmt value) (start.to close)

def jump (kind : NodeKind Symbol NodeId) (start : Span) : Machine NodeId := do
  advance
  let close ← expect (.punct .semicolon)
  build kind (start.to close)

def exprOrAssign (bound : Nat) : Machine NodeId := do
  let lhs ← expr bound
  let lhsSpan ← spanOf lhs
  match (← current).kind.assignOp? with
  | some op =>
    let target ← node lhs
    if !target.kind.isPlace then fault .notAPlace lhsSpan
    advance
    let value ← expr bound
    let close ← expect (.punct .semicolon)
    build (.assign lhs op value) (lhsSpan.to close)
  | none =>
    let close ← expect (.punct .semicolon)
    build (.exprStmt lhs) (lhsSpan.to close)

def stmt (bound : Nat) (block conditional : Machine NodeId) : Machine NodeId := do
  let t ← current
  match t.kind with
  | .keyword .letKw => letStmt bound
  | .keyword .returnKw => returnStmt bound t.span
  | .keyword .ifKw => conditional
  | .keyword .whileKw =>
    advance
    let cond ← header bound
    let body ← block
    let bodySpan ← spanOf body
    build (.whileStmt cond body) (t.span.to bodySpan)
  | .keyword .forKw =>
    advance
    let (var, _) ← expectIdent
    let _ ← expect (.keyword .inKw)
    let iter ← header bound
    let body ← block
    let bodySpan ← spanOf body
    build (.forStmt var iter body) (t.span.to bodySpan)
  | .keyword .breakKw => jump .breakStmt t.span
  | .keyword .continueKw => jump .continueStmt t.span
  | .punct .lbrace => block
  | _ => exprOrAssign bound

def stmtLoop (stmt : Machine NodeId) : Nat → Array NodeId → Machine (List NodeId)
  | 0, _ => stuck
  | bound + 1, done => do
    if (← isAt (.punct .rbrace)) || (← isAt .eof) then return done.toList
    if ← eat (.punct .semicolon) then stmtLoop stmt bound done
    else
      let before ← cursor
      let id ← stmt
      if (← cursor) = before then
        advance
        stmtLoop stmt bound done
      else stmtLoop stmt bound (done.push id)

def braced (bound : Nat) (stmt : Machine NodeId) : Machine NodeId := do
  let start ← expect (.punct .lbrace)
  let stmts ← stmtLoop stmt bound #[]
  let close ← expect (.punct .rbrace)
  build (.block stmts) (start.to close)

def ifElse (bound : Nat) (block conditional : Machine NodeId) : Machine NodeId := do
  let start ← expect (.keyword .ifKw)
  let cond ← header bound
  let thenBranch ← block
  let elseBranch ← after (.keyword .elseKw) do
    if ← isAt (.keyword .ifKw) then conditional else block
  let lastSpan ← spanOf (elseBranch.getD thenBranch)
  build (.ifStmt cond thenBranch elseBranch) (start.to lastSpan)

mutual

def block : Nat → Machine NodeId
  | 0 => stuck
  | bound + 1 => level (braced bound (stmt bound (block bound) (conditional bound)))

def conditional : Nat → Machine NodeId
  | 0 => stuck
  | bound + 1 => level (ifElse bound (block bound) (conditional bound))

end

/-! ### Programs -/

def param (bound : Nat) : Machine NodeId := do
  let start := (← current).span
  let mutable ← eat (.keyword .mutKw)
  let (name, _) ← expectIdent
  let _ ← expect (.punct .colon)
  let ty ← type bound
  let tySpan ← spanOf ty
  build (.param name mutable ty) (start.to tySpan)

def structField (bound : Nat) : Machine NodeId := do
  let start := (← current).span
  let (name, _) ← expectIdent
  let _ ← expect (.punct .colon)
  let ty ← type bound
  let tySpan ← spanOf ty
  build (.field name ty) (start.to tySpan)

def function (bound : Nat) (isPublic : Bool) (start : Span) : Machine NodeId := do
  let _ ← expect (.keyword .fnKw)
  let (name, _) ← expectIdent
  let _ ← expect (.punct .lparen)
  let params ← entries (.punct .rparen) (param bound) bound #[]
  let _ ← expect (.punct .rparen)
  let ret ← after (.punct .arrow) (type bound)
  let body ← block bound
  let bodySpan ← spanOf body
  build (.function name isPublic params ret body) (start.to bodySpan)

def struct (bound : Nat) (start : Span) : Machine NodeId := do
  let _ ← expect (.keyword .structKw)
  let (name, _) ← expectIdent
  let _ ← expect (.punct .lbrace)
  let fields ← entries (.punct .rbrace) (structField bound) bound #[]
  let close ← expect (.punct .rbrace)
  build (.struct name fields) (start.to close)

def item (bound : Nat) : Machine NodeId := do
  let start := (← current).span
  let isPublic ← eat (.keyword .pubKw)
  if ← isAt (.keyword .structKw) then struct bound start
  else function bound isPublic start

def eatSeparator : Machine Bool := do
  if ← eat (.punct .colonColon) then return true else eat (.punct .dot)

def pathLoop : Nat → Array Symbol → Span → Machine (List Symbol × Span)
  | 0, _, _ => stuck
  | bound + 1, path, last => do
    if ← eatSeparator then
      let (name, span) ← expectIdent
      pathLoop bound (path.push name) span
    else return (path.toList, last)

def importPath (bound : Nat) : Machine NodeId := do
  let start := (← current).span
  advance
  let (first, span) ← expectIdent
  let (path, last) ← pathLoop bound #[first] span
  let t ← current
  let close ← if ← eat (.punct .semicolon) then pure t.span else pure last
  build (.importPath path) (start.to close)

def skipLoop : Nat → Machine Unit
  | 0 => stuck
  | bound + 1 => do
    let kind := (← current).kind
    if decide (kind ≠ .eof) && !Parser.startsItem kind then
      advance
      skipLoop bound
    else return ()

def skipToItem (bound : Nat) : Machine Unit := do
  advance
  skipLoop bound

def itemLoop : Nat → Array NodeId → Machine (List NodeId)
  | 0, _ => stuck
  | bound + 1, done => do
    let t ← current
    match t.kind with
    | .eof => return done.toList
    | .keyword .fnKw | .keyword .structKw | .keyword .pubKw =>
      let id ← item bound
      itemLoop bound (done.push id)
    | .keyword .useKw | .keyword .importKw =>
      let id ← importPath bound
      itemLoop bound (done.push id)
    | found =>
      fault (.notAnItem found) t.span
      skipToItem bound
      itemLoop bound done

def program (bound : Nat) : Machine NodeId := do
  let start := (← current).span
  let items ← itemLoop bound #[]
  let close := (← current).span
  build (.program items) (start.to close)

/-- The tokens with a closing one at the end, which stands where the last token
does if it was missing. -/
def closed (tokens : Array Token) : Array Token :=
  match tokens.back? with
  | none => #[⟨.eof, {}⟩]
  | some last => if last.kind = .eof then tokens else tokens.push ⟨.eof, last.span⟩

def Setup.of (lexed : Lexed) (opts : Options) : Setup :=
  ⟨closed lexed.tokens, opts.mode, opts.limits.maxDepth⟩

def State.start (lexed : Lexed) (opts : Options) : State :=
  State.note
    { arena := .withLimits opts.limits, names := lexed.names, diagnostics := lexed.diagnostics }

/-- A whole run: what it answers, and what the registers held on the way. -/
def run (bound : Nat) (lexed : Lexed) (opts : Options) :
    Option (Except Diagnostics Parsed × List Moment) := do
  let (root, s) ← program bound (.of lexed opts) (.start lexed opts)
  match root with
  | some root => return (Parsed.accept ⟨⟨s.arena, s.names, root⟩, s.diagnostics⟩ opts, s.trace)
  | none => return (.error (s.diagnostics.push (← s.fatal)), s.trace)

end StagedCompiler.Cursor
