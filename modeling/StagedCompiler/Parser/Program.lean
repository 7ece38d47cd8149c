import StagedCompiler.Ast
import StagedCompiler.Parser.Stmt

/-!
Functions, structs, imports and whole programs.
-/

namespace StagedCompiler

namespace Parser

/-- A parameter `[mut] name: type`. -/
def param (depth : Nat) : Parser Built := do
  let start := (← current).span
  let mutable ← eat (.keyword .mutKw)
  let (name, _) ← expectIdent
  let _ ← expect (.punct .colon)
  let ty ← type depth
  build (.param name mutable ty.id) (start.to ty.span)

/-- A field `name: type`. -/
def structField (depth : Nat) : Parser Built := do
  let start := (← current).span
  let (name, _) ← expectIdent
  let _ ← expect (.punct .colon)
  let ty ← type depth
  build (.field name ty.id) (start.to ty.span)

/-- A function `fn name(params) [-> type] { ... }`. -/
def function (depth : Nat) (isPublic : Bool) (start : Span) : Parser Built := do
  let _ ← expect (.keyword .fnKw)
  let (name, _) ← expectIdent
  let _ ← expect (.punct .lparen)
  let params ← commaList (.punct .rparen) (param depth)
  let _ ← expect (.punct .rparen)
  let ret ← after (.punct .arrow) (type depth)
  let body ← block depth
  build (.function name isPublic (params.map (·.id)) (ret.map (·.id)) body.id)
    (start.to body.span)

/-- A declaration `struct name { fields }`. -/
def struct (depth : Nat) (start : Span) : Parser Built := do
  let _ ← expect (.keyword .structKw)
  let (name, _) ← expectIdent
  let _ ← expect (.punct .lbrace)
  let fields ← commaList (.punct .rbrace) (structField depth)
  let close ← expect (.punct .rbrace)
  build (.struct name (fields.map (·.id))) (start.to close)

def item (depth : Nat) : Parser Built := do
  let start := (← current).span
  let isPublic ← eat (.keyword .pubKw)
  if ← isAt (.keyword .structKw) then struct depth start
  else function depth isPublic start

def eatSeparator : Parser Bool := do
  if ← eat (.punct .colonColon) then return true else eat (.punct .dot)

/-- At most `fuel` further names of a path and where the last one stands. -/
def pathTail : Nat → Array Symbol → Span → Parser (List Symbol × Span)
  | 0, path, last => return (path.toList, last)
  | fuel + 1, path, last => do
    if ← eatSeparator then
      let (name, span) ← expectIdent
      pathTail fuel (path.push name) span
    else return (path.toList, last)

/-- An import `use a::b::c;` or `import a.b`, with an optional semicolon. -/
def importPath : Parser Built := do
  let start := (← current).span
  advance
  let (first, span) ← expectIdent
  let (path, last) ← pathTail (← rounds) #[first] span
  let t ← current
  let close ← if ← eat (.punct .semicolon) then pure t.span else pure last
  build (.importPath path) (start.to close)

def startsItem : TokenKind → Bool
  | .keyword .fnKw | .keyword .structKw | .keyword .useKw | .keyword .importKw
  | .keyword .pubKw => true
  | _ => false

/-- Drop the front token and those after it up to one that can start an item. -/
def skipToItem : Parser Unit := do
  advance
  advanceWhile fun k => decide (k ≠ .eof) && !startsItem k

def itemsToEnd (depth : Nat) : Nat → Array NodeId → Parser (List NodeId)
  | 0, done => return done.toList
  | fuel + 1, done => do
    let t ← current
    match t.kind with
    | .eof => return done.toList
    | .keyword .fnKw | .keyword .structKw | .keyword .pubKw =>
      let b ← item depth
      itemsToEnd depth fuel (done.push b.id)
    | .keyword .useKw | .keyword .importKw =>
      let b ← importPath
      itemsToEnd depth fuel (done.push b.id)
    | found =>
      fault (.notAnItem found) t.span
      skipToItem
      itemsToEnd depth fuel done

def program : Parser Built := do
  let start := (← current).span
  let items ← itemsToEnd (← read).maxDepth (← rounds) #[]
  let close := (← current).span
  build (.program items) (start.to close)

end Parser

/-- A unit with what was recovered from on the way, lexical faults first. -/
structure Parsed where
  ast : Ast
  diagnostics : Diagnostics

/-- Tokens without a closing one, and where that stands. If the stream does
not end in one, it stands where the last token does. -/
def splitEof (tokens : Array Token) : List Token × Span :=
  match tokens.back? with
  | none => ([], {})
  | some last =>
    if last.kind = .eof then (tokens.pop.toList, last.span) else (tokens.toList, last.span)

/-- The program of a token stream, with the faults that the stream brings along
before its own. -/
def readProgram (lexed : Lexed) (opts : Options) : Except Diagnostics Parsed := do
  let (rest, eofSpan) := splitEof lexed.tokens
  let settings : ParseSettings := ⟨opts.mode, opts.limits.maxDepth, eofSpan, rest.length⟩
  let state : ParseState :=
    { rest, arena := .withLimits opts.limits, names := lexed.names,
      diagnostics := lexed.diagnostics }
  let (root, state) ← (Parser.program settings).run state
  return ⟨⟨state.arena, state.names, root.id⟩, state.diagnostics⟩

/-- A strict reader accepts no faults, wherever they were met. -/
def Parsed.accept (parsed : Parsed) (opts : Options) : Except Diagnostics Parsed :=
  if opts.isStrict && !parsed.diagnostics.isEmpty then .error parsed.diagnostics else .ok parsed

/-- The program of a token stream, as far as the options accept it. -/
def parse (lexed : Lexed) (opts : Options) : Except Diagnostics Parsed := do
  (← readProgram lexed opts).accept opts

def parseSource (src : String) (opts : Options) : Except Diagnostics Parsed := do
  parse (← tokenize src opts) opts

end StagedCompiler
