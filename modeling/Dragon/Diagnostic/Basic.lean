import Dragon.Check.Violation
import Dragon.Token.Fault

/-!
# Diagnostics

Messages for the writer of a program, with the places they are about.
-/
namespace Dragon

inductive Severity where
  | error | warning | note
  deriving DecidableEq, Repr

namespace Severity

def all : List Severity := [error, warning, note]

def text : Severity → String
  | error => "error"
  | warning => "warning"
  | note => "note"

end Severity

/-- A place with something to say about it. -/
structure Label where
  span : Span
  message : String
  deriving DecidableEq, Repr

structure Diagnostic where
  severity : Severity
  code : String
  message : String
  labels : List Label
  notes : List String
  deriving DecidableEq, Repr

namespace Diagnostic

/-- The place of the first label. -/
def span? (d : Diagnostic) : Option Span := d.labels.head?.map (·.span)

/-- An error at one place. -/
def errorAt (span : Span) (code message : String) (notes : List String) : Diagnostic :=
  ⟨.error, code, message, [⟨span, ""⟩], notes⟩

/-- Diagnostics that stopped a compilation, in one line. -/
def summary (ds : List Diagnostic) : String :=
  let messages := "; ".intercalate (ds.map (·.message))
  s!"{ds.length} error(s): {messages}"

end Diagnostic

def SyntaxFault.diagnostic (f : SyntaxFault) : Diagnostic :=
  .errorAt f.span f.cause.code f.cause.message []

def SemanticFault.diagnostic (f : SemanticFault) : Diagnostic :=
  .errorAt f.span f.violation.code f.violation.message f.violation.notes

end Dragon
