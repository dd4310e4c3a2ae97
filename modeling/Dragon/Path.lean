import Dragon.Text.Split

/-!
# Paths of files

Empty steps and steps that stay where they are leave no trace in a path; steps to the directory
above do, until the path is resolved.
-/
namespace Dragon

structure Path where
  absolute : Bool
  parts : List String
  deriving DecidableEq, Repr

namespace Path

/-- The steps of a path as they are written, between slashes. -/
def steps (text : String) : List String := (Text.splitBy '/' text.toList).map String.ofList

def isAbsolute (text : String) : Bool := text.toList.head? == some '/'

def ofText (text : String) : Path where
  absolute := isAbsolute text
  parts := (steps text).filter fun s => s != "" && s != "."

def text (p : Path) : String :=
  let joined := "/".intercalate p.parts
  if p.absolute then "/" ++ joined else if p.parts.isEmpty then "." else joined

/-- One step further; above the root there is the root. -/
def enter (parts : List String) (step : String) : List String :=
  if step == ".." then parts.dropLast else parts ++ [step]

/-- The absolute path that a path means in a directory, without steps upward. -/
def resolve (here p : Path) : Path :=
  ⟨true, p.parts.foldl enter (if p.absolute then [] else here.parts)⟩

/-- A path, the directory it is in, and so on up to the root. -/
def ancestors (p : Path) : List Path :=
  (List.range (p.parts.length + 1)).reverse.map fun n => { p with parts := p.parts.take n }

def child (p : Path) (name : String) : Path := { p with parts := p.parts ++ [name] }

end Path

end Dragon
