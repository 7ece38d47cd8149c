/-!
Places in a source text. A `Position` is what a reader knows at one byte; a
`Span` is the byte range of a token or node together with the line and column
at which it starts.
-/

namespace StagedCompiler

/-- Byte offset, line and column of a reader. Offsets count from zero, lines
and columns from one. -/
structure Position where
  offset : Nat := 0
  line : Nat := 1
  col : Nat := 1
deriving DecidableEq

/-- The place after one byte: a line feed opens a new line, and any other byte
takes one column. -/
def Position.step (p : Position) (b : UInt8) : Position :=
  if b = 10 then ⟨p.offset + 1, p.line + 1, 1⟩ else ⟨p.offset + 1, p.line, p.col + 1⟩

/-- The place after a run of bytes. -/
def Position.advance (p : Position) (bytes : List UInt8) : Position :=
  bytes.foldl Position.step p

/-- The place after one character of `width` bytes that takes a single column. -/
def Position.skipChar (p : Position) (width : Nat) : Position :=
  ⟨p.offset + width, p.line, p.col + 1⟩

/-- A half-open byte range `[start, stop)` and where it starts. The default
value, all zeros, stands for a place that no source has. -/
structure Span where
  start : Nat := 0
  stop : Nat := 0
  line : Nat := 0
  col : Nat := 0
deriving DecidableEq, Inhabited

/-- Offsets are kept in 32 bits. -/
def Span.limit : Nat :=
  4294967296

/-- The range read between two places. Behind the limit, offsets start anew. -/
def Span.between (first last : Position) : Span :=
  ⟨first.offset % limit, last.offset % limit, first.line, first.col⟩

/-- The range from the start of `a` to the end of whichever ends later. -/
def Span.to (a b : Span) : Span :=
  { a with stop := max b.stop a.stop }

end StagedCompiler
