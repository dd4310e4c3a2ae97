import Dragon.Operation
import Dragon.Typed.Value

/-!
# Verbose runs

What a verbose run reports of its work, as lines that name the part of the compiler.
-/
namespace Dragon

/-- Why a statement was removed. -/
inductive Removal where
  | selfAssignment
  | falseCondition
  | repeats (times : Typed.Value)
  | emptyRange
  | emptyList

def Removal.text : Removal → String
  | selfAssignment => "self-assignment"
  | falseCondition => "condition is shant"
  | repeats times => s!"repeats {times.text} times"
  | emptyRange => "empty range"
  | emptyList => "iterates an empty list"

inductive Event where
  | parsed (file : String) (statements : Nat)
  | declared (name kind : String)
  | analyzed (isMethod : Bool) (name : String)
  | folded (left : Typed.Value) (op : BinaryOp) (right result : Typed.Value)
  | simplified (op : BinaryOp)
  | keptConsequent
  | keptAlternate
  | removed (statement : String) (reason : Removal)

def Event.line : Event → String
  | parsed file n => s!"yeoldedragon.compiler: parsed {file}: {n} statement(s)"
  | declared name kind => s!"yeoldedragon.checker: declared {name} ({kind})"
  | analyzed isMethod name =>
    let what := if isMethod then "method" else "function"
    s!"yeoldedragon.checker: analyzed {what} {name}"
  | folded left op right result =>
    s!"yeoldedragon.optimizer: folded {left.text} {op.text} {right.text} to {result.text}"
  | simplified op => s!"yeoldedragon.optimizer: simplified {op.text} with an identity"
  | keptConsequent => "yeoldedragon.optimizer: if with constant test: kept consequent"
  | keptAlternate => "yeoldedragon.optimizer: if with constant test: kept alternate"
  | removed statement reason => s!"yeoldedragon.optimizer: removed {statement}: {reason.text}"

end Dragon
