import StagedCompiler.Diagnostic
import StagedCompiler.Options
import StagedCompiler.Token.Scan

/-!
From source text to tokens. The source is cut into pieces from front to back;
each piece may make a token, report a fault, or do both. Only a token limit
ends the reading early.
-/

namespace StagedCompiler

/-- A source as tokens, the last of which is its only `eof`. -/
structure Lexed where
  tokens : Array Token
  names : Interner
  /-- Faults that did not end the reading, in source order. -/
  diagnostics : Diagnostics

structure LexState where
  here : Position := {}
  rest : List UInt8
  tokens : Array Token := #[]
  names : Interner := .empty
  diagnostics : Diagnostics := #[]

namespace LexState

def push (s : LexState) (maxTokens : Nat) (t : Token) : Except Diagnostics LexState :=
  if maxTokens ≤ s.tokens.size then
    .error (s.diagnostics.push ((Exceeded.tokens maxTokens).diagnostic t.span))
  else .ok { s with tokens := s.tokens.push t }

def report (diagnostics : Diagnostics) (p : Piece) (span : Span) : Diagnostics :=
  match p.fault? with
  | some fault => diagnostics.push ⟨.lex, fault.message, some span⟩
  | none => diagnostics

def read (maxTokens : Nat) (p : Piece) : LexState → Except Diagnostics LexState
  | ⟨here, rest, tokens, names, diagnostics⟩ =>
    let there := p.advance here rest
    let span := Span.between here there
    let rest := rest.drop p.length
    let diagnostics := report diagnostics p span
    match p.token names with
    | (some kind, names) =>
      LexState.push ⟨there, rest, tokens, names, diagnostics⟩ maxTokens ⟨kind, span⟩
    | (none, names) => .ok ⟨there, rest, tokens, names, diagnostics⟩

/-- Read up to `fuel` pieces and then the end of the source. -/
def run (maxTokens : Nat) : Nat → LexState → Except Diagnostics LexState
  | 0, s => s.push maxTokens ⟨.eof, Span.between s.here s.here⟩
  | fuel + 1, s =>
    match Piece.atFront? s.rest with
    | none => s.push maxTokens ⟨.eof, Span.between s.here s.here⟩
    | some p => do run maxTokens fuel (← read maxTokens p s)

end LexState

/-- All tokens of a source. A piece holds at least one byte, so there are no
more pieces than bytes. -/
def lex (src : String) (limits : Limits) : Except Diagnostics Lexed := do
  let bytes := Text.bytes src
  let s ← LexState.run limits.clamped.maxTokens bytes.length { rest := bytes }
  return ⟨s.tokens, s.names, s.diagnostics⟩

def Lexed.accept (lexed : Lexed) (opts : Options) : Except Diagnostics Lexed :=
  if opts.isStrict && !lexed.diagnostics.isEmpty then .error lexed.diagnostics else .ok lexed

/-- All tokens of a source, as far as the options accept them. -/
def tokenize (src : String) (opts : Options) : Except Diagnostics Lexed := do
  (← lex src opts.limits).accept opts

end StagedCompiler
