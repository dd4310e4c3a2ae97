import Dragon.Diagnostic.Basic
import Dragon.Text.Lines

/-!
# Diagnostics as text

The message, the line of each label with carets under what it is about, and the notes. Colours are
those of terminals and can be left out.
-/
namespace Dragon

namespace Severity

def color : Severity → String
  | error => "\x1b[1;31m"
  | warning => "\x1b[1;33m"
  | note => "\x1b[1;36m"

end Severity

namespace Render

/-- Text in a colour, or as it is. -/
def painted (colored : Bool) (color text : String) : String :=
  if colored then color ++ text ++ "\x1b[0m" else text

def bold : String := "\x1b[1m"

def blue : String := "\x1b[1;34m"

/-- A number at the right end of four columns. -/
def gutter (n : Nat) : String :=
  let digits := (toString n).toList
  String.ofList (List.replicate (4 - digits.length) ' ' ++ digits)

/-- How many carets stand under a line. A span of several lines reaches to the end of its first. -/
def caretCount (span : Span) (line : String) : Nat :=
  let stop := if span.start.line = span.stop.line then span.stop.column else line.length
  max 1 (stop + 1 - span.start.column)

def repeated (c : Char) (n : Nat) : String := String.ofList (List.replicate n c)

/-- The bar beside the source text. -/
def bar (colored : Bool) : String := "  " ++ painted colored blue "   |"

/-- The line that a label points into, with its carets. -/
def excerpt (colored : Bool) (severity : Severity) (span : Span) (line : String) : List String :=
  ["  " ++ painted colored blue (gutter span.start.line ++ " |") ++ " " ++ line,
   bar colored ++ " " ++ repeated ' ' (span.start.column - 1) ++
     painted colored severity.color (repeated '^' (caretCount span line))]

def label (colored : Bool) (linesOf : String → List String) (severity : Severity) (l : Label) :
    List String :=
  let source := match Text.lineAt? (linesOf l.span.file) l.span.start.line with
    | some line => excerpt colored severity l.span line
    | none => []
  let message :=
    if l.message.isEmpty then []
    else [bar colored ++ "   " ++ painted colored severity.color l.message]
  ("  " ++ painted colored blue "-->" ++ " " ++ l.span.address) :: bar colored :: source ++ message

def note (colored : Bool) (text : String) : String :=
  "  " ++ painted colored blue "=" ++ " note: " ++ text

end Render

/-- The text of a diagnostic. `linesOf` gives the lines of a source file, none if there is no such
file. -/
def Diagnostic.render (colored : Bool) (linesOf : String → List String) (d : Diagnostic) : String :=
  let title := Render.painted colored d.severity.color s!"{d.severity.text}[{d.code}]" ++
    Render.painted colored Render.bold s!": {d.message}"
  "\n".intercalate
    (title :: d.labels.flatMap (Render.label colored linesOf d.severity) ++
      d.notes.map (Render.note colored))

end Dragon
