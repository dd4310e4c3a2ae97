import Dragon.Text.Blank

/-!
# Lines of a text

Reading a file turns every kind of line end into a line feed; showing a line cuts the text at every
line break, the pair of carriage return and line feed being one.
-/
namespace Dragon.Text

/-- Carriage returns, alone or before a line feed, become line feeds. -/
def unifyNewlines : List Char → List Char
  | '\r' :: '\n' :: rest => '\n' :: unifyNewlines rest
  | c :: rest => (if c == '\r' then '\n' else c) :: unifyNewlines rest
  | [] => []

/-- A text as it is read from a file. -/
def unified (text : String) : String := String.ofList (unifyNewlines text.toList)

/-- The displayed lines, without their ends. A break at the end opens no further line. -/
def splitLines : List Char → List (List Char)
  | '\r' :: '\n' :: rest => [] :: splitLines rest
  | c :: rest =>
    if isLineBreak c then [] :: splitLines rest
    else match splitLines rest with
      | [] => [[c]]
      | line :: lines => (c :: line) :: lines
  | [] => []

/-- The displayed lines of a text. -/
def lines (text : String) : List String :=
  (splitLines text.toList).map String.ofList

/-- The line with a number counted from one. -/
def lineAt? (lines : List String) (n : Int) : Option String :=
  if 1 ≤ n then lines[(n - 1).toNat]? else none

end Dragon.Text
