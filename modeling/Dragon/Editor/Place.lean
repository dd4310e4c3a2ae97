import Dragon.Span
import Dragon.Text.Digit
import Dragon.Text.Lines

/-!
# Places in editors

Places as editors count them: from zero, with the end of a range behind its last character.
-/
namespace Dragon.Editor

structure Range where
  startLine : Int
  startColumn : Int
  stopLine : Int
  stopColumn : Int
  deriving DecidableEq, Repr

/-- The range at the start of a document. -/
def Range.zero : Range := ⟨0, 0, 0, 0⟩

def Range.ofSpan (s : Span) : Range :=
  ⟨s.start.line - 1, s.start.column - 1, s.stop.line - 1, s.stop.column⟩

/-- The letters, digits and underscores on both sides of a place in a line. -/
def wordAround (line : List Char) (n : Nat) : List Char :=
  ((line.take n).reverse.takeWhile Text.isWordChar).reverse ++
    (line.drop n).takeWhile Text.isWordChar

/-- The word at a place in a line. The place behind the last character belongs to it. -/
def wordInLine (line : List Char) (column : Int) : List Char :=
  if column < 0 || (line.length : Int) < column then []
  else if column = line.length then
    if line.isEmpty then [] else wordAround line (line.length - 1)
  else wordAround line column.toNat

/-- The word at a place in a text, empty if there is none. -/
def wordAt (text : String) (line column : Int) : String :=
  match Text.lineAt? (Text.lines text) (line + 1) with
  | none => ""
  | some row => String.ofList (wordInLine row.toList column)

end Dragon.Editor
