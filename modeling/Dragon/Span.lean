/-!
# Places in a source text

Lines and columns count from one, columns in characters, and only a line feed starts a new line.
-/
namespace Dragon

structure Pos where
  line : Nat
  column : Nat
  deriving DecidableEq, Repr

namespace Pos

def origin : Pos := ⟨1, 1⟩

/-- The position after a character. -/
def step (p : Pos) (c : Char) : Pos :=
  if c = '\n' then ⟨p.line + 1, 1⟩ else ⟨p.line, p.column + 1⟩

/-- The position after a text. -/
def advance (p : Pos) (text : List Char) : Pos := text.foldl step p

/-- The column before, on the same line; the first column has none before it and stays. -/
def back (p : Pos) : Pos := ⟨p.line, if 1 < p.column then p.column - 1 else 1⟩

end Pos

/-- A stretch of a source file, both ends included. -/
structure Span where
  file : String
  start : Pos
  stop : Pos
  deriving DecidableEq, Repr

namespace Span

/-- From the start of one span to the end of another. -/
def through (first last : Span) : Span := ⟨first.file, first.start, last.stop⟩

/-- The start of a span in words. -/
def location (s : Span) : String := s!"line {s.start.line}, column {s.start.column}"

/-- The start of a span as file, line and column. -/
def address (s : Span) : String := s!"{s.file}:{s.start.line}:{s.start.column}"

end Span

end Dragon
