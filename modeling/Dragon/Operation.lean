/-!
# Operations of the language and how they are written
-/
namespace Dragon

inductive UnaryOp where
  | neg | not | some
  deriving DecidableEq, Repr

def UnaryOp.text : UnaryOp → String
  | neg => "-"
  | not => "ne"
  | some => "some"

inductive BinaryOp where
  | or | and | eq | ne | lt | gt | le | ge | add | sub | mul | div | pow
  deriving DecidableEq, Repr

def BinaryOp.text : BinaryOp → String
  | or => "||" | and => "&&" | eq => "==" | ne => "!=" | lt => "<" | gt => ">" | le => "<="
  | ge => ">=" | add => "+" | sub => "-" | mul => "*" | div => "/" | pow => "**"

/-- A member of an object, or of an optional object that may be absent. -/
inductive Access where
  | plain | optional
  deriving DecidableEq, Repr

def Access.text : Access → String
  | plain => "."
  | optional => "?."

/-- Ranges with and without their upper end. -/
inductive RangeKind where
  | closed | halfOpen
  deriving DecidableEq, Repr

def RangeKind.text : RangeKind → String
  | closed => "..."
  | halfOpen => "..<"

end Dragon
