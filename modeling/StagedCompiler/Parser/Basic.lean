import StagedCompiler.Arena
import StagedCompiler.Token.Lexer

/-!
The reader of token streams. It walks the tokens from front to back, builds
nodes in an arena, and either recovers from a fault or gives up, as the mode
says. An exceeded limit always makes it give up.
-/

namespace StagedCompiler

inductive ParseFault where
  | expected (what : String) (found : TokenKind)
  | notAnItem (found : TokenKind)
  | notAPlace
deriving DecidableEq

def ParseFault.message : ParseFault → String
  | expected what found => "expected " ++ what ++ ", found " ++ found.describe
  | notAnItem found => "unexpected " ++ found.describe ++ " at top level"
  | notAPlace => "invalid assignment target"

/-- What stays the same while a token stream is read. -/
structure ParseSettings where
  mode : Mode
  maxDepth : Nat
  /-- Where the closing token stands. -/
  eofSpan : Span
  /-- The number of tokens, which bounds every repetition: each round of one
  takes a token. -/
  tokenCount : Nat

structure ParseState where
  /-- The tokens not yet taken, without the closing one. -/
  rest : List Token
  /-- How many tokens were taken. -/
  consumed : Nat := 0
  arena : Arena
  names : Interner
  diagnostics : Diagnostics

/-- A reader fails with all diagnostics up to the one that made it give up. -/
abbrev Parser := ReaderT ParseSettings (StateT ParseState (Except Diagnostics))

structure Built where
  id : NodeId
  node : Node

def Built.span (b : Built) : Span :=
  b.node.span

namespace Parser

def fail {α : Type} (d : Diagnostic) : Parser α :=
  fun _ s => .error (s.diagnostics.push d)

/-- Report a fault and go on, or give up if the mode is strict. -/
def fault (f : ParseFault) (span : Span) : Parser Unit :=
  fun c s =>
    let d : Diagnostic := ⟨.parse, f.message, some span⟩
    match c.mode with
    | .strict => .error (s.diagnostics.push d)
    | .lenient => .ok ((), { s with diagnostics := s.diagnostics.push d })

/-- The token `n` places ahead; past the last one stands the closing token. -/
def peek (n : Nat) : Parser Token :=
  fun c s => .ok ((s.rest.drop n).headD ⟨.eof, c.eofSpan⟩, s)

def current : Parser Token :=
  fun c s => .ok (s.rest.headD ⟨.eof, c.eofSpan⟩, s)

/-- Take the token at the front; the closing token stays. -/
def advance : Parser Unit :=
  fun _ s =>
    match s.rest with
    | [] => .ok ((), s)
    | _ :: rest => .ok ((), { s with rest, consumed := s.consumed + 1 })

def advanceWhile (skip : TokenKind → Bool) : Parser Unit :=
  fun _ s =>
    let n := (s.rest.takeWhile fun t => skip t.kind).length
    .ok ((), { s with rest := s.rest.drop n, consumed := s.consumed + n })

def isAt (k : TokenKind) : Parser Bool :=
  return decide ((← current).kind = k)

/-- Take a token of the given kind if it is at the front. -/
def eat (k : TokenKind) : Parser Bool := do
  if ← isAt k then
    advance
    return true
  return false

/-- Take a token of the given kind and say where it stands. If another one is
at the front, report that and leave it there. -/
def expect (k : TokenKind) : Parser Span := do
  let t ← current
  if t.kind = k then
    advance
  else
    fault (.expected k.describe t.kind) t.span
  return t.span

def intern (text : String) : Parser Symbol :=
  fun _ s =>
    let (sym, names) := s.names.intern text
    .ok (sym, { s with names })

def resolve (sym : Symbol) : Parser String :=
  fun _ s => .ok (s.names.resolve sym, s)

def missingName : String :=
  "<missing>"

/-- Take a name and say where it stands. If there is none, report that and use
the name for missing ones. -/
def expectIdent : Parser (Symbol × Span) := do
  let t ← current
  match t.kind with
  | .ident sym =>
    advance
    return (sym, t.span)
  | found =>
    fault (.expected "identifier" found) t.span
    return (← intern missingName, t.span)

def build (kind : NodeKind Symbol NodeId) (span : Span) : Parser Built :=
  fun _ s =>
    match s.arena.refusal? kind with
    | some e => .error (s.diagnostics.push (e.diagnostic span))
    | none =>
      let id := s.arena.size
      .ok (⟨id, kind, span⟩, { s with arena := s.arena.append ⟨kind, span⟩ })

def tooDeep {α : Type} : Parser α := do
  let c ← read
  fail ((Exceeded.depth c.maxDepth).diagnostic (← current).span)

/-- The number of rounds that no repetition exceeds. -/
def rounds : Parser Nat :=
  return (← read).tokenCount + 1

/-- At most `fuel` items with commas between them, up to a closing token,
which is left at the front. A comma may stand before it. -/
def itemsUntil {α : Type} (close : TokenKind) (item : Parser α) :
    Nat → Array α → Parser (List α)
  | 0, done => return done.toList
  | fuel + 1, done => do
    if (← isAt close) || (← isAt .eof) then return done.toList
    let x ← item
    if ← eat (.punct .comma) then itemsUntil close item fuel (done.push x)
    else return (done.push x).toList

/-- Items with commas between them, up to a closing token that is left at the
front. -/
def commaList {α : Type} (close : TokenKind) (item : Parser α) : Parser (List α) := do
  itemsUntil close item (← rounds) #[]

end Parser

end StagedCompiler
