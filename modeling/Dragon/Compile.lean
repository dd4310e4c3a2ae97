import Dragon.Check.Stmt
import Dragon.Diagnostic.Basic
import Dragon.Script.OfTyped
import Dragon.Script.Text
import Dragon.Tree.Source
import Dragon.Typed.Optimize

/-!
# Compilation of a source text up to a stage
-/
namespace Dragon

inductive Stage where
  | parsed | analyzed | optimized | script
  deriving DecidableEq, Repr

namespace Stage

def all : List Stage := [parsed, analyzed, optimized, script]

def name : Stage → String
  | parsed => "parsed"
  | analyzed => "analyzed"
  | optimized => "optimized"
  | script => "js"

def ofName? (name : String) : Option Stage := all.find? (·.name == name)

end Stage

inductive CompileError where
  | malformed (fault : SyntaxFault)
  | rejected (failure : CheckFailure)
  | unwritable (cause : Script.Unwritable)

namespace CompileError

/-- The diagnostic of an error that has a place. -/
def diagnostic? : CompileError → Option Diagnostic
  | malformed fault => some fault.diagnostic
  | rejected (.violation fault) => some fault.diagnostic
  | _ => none

/-- An error in one line, with its place if it has one. -/
def message : CompileError → String
  | malformed fault => s!"{fault.span.location}: {fault.cause.message}"
  | rejected (.violation fault) => s!"{fault.span.location}: {fault.violation.message}"
  | rejected (.overlongInteger digits) =>
    s!"Exceeds the limit ({Check.digitLimit} digits) for integer string conversion: " ++
      s!"value has {digits} digits; use sys.set_int_max_str_digits() to increase the limit"
  | rejected (.unreadableInteger text) =>
    -- a long text is cut inside its quotes
    s!"invalid literal for int() with base 10: " ++
      String.ofList ((Text.quoted text).toList.take 200)
  | rejected (.unreadableFloat text) => s!"could not convert string to float: {Text.quoted text}"
  | unwritable cause => cause.message

end CompileError

/-- What a compilation gives, depending on its stage. -/
inductive Output where
  /-- The syntax is right. -/
  | accepted
  | program (p : Typed.Program)
  | script (text : String)

/-- The printed lines of an output. -/
def Output.lines : Output → List String
  | accepted => ["Syntax is ok"]
  | program p => p.view
  | script text => [text]

/-- A compilation with the log of its work. -/
abbrev Compiled := Logged (Except CompileError Output)

/-- The text of the script of a program. -/
def scriptOf (p : Typed.Program) : Except CompileError Output :=
  match Script.ofProgram p with
  | .ok statements => .ok (.script (Script.scriptText statements))
  | .error cause => .error (.unwritable cause)

/-- The stages after a program was checked. The last stage optimizes only when asked to, the one
before it always. -/
def finish (stage : Stage) (optimize : Bool) (p : Typed.Program) : Compiled :=
  match stage with
  | .parsed => pure (.ok .accepted)
  | .analyzed => pure (.ok (.program p))
  | .optimized => do
    let p ← p.optimize
    pure (.ok (.program p))
  | .script => do
    let p ← if optimize then p.optimize else pure p
    pure (scriptOf p)

/-- Compiles a source text up to a stage. -/
def compile (stage : Stage) (optimize : Bool) (file source : String) : Compiled :=
  match Tree.Program.ofSource file source with
  | .error fault => pure (.error (.malformed fault))
  | .ok tree => do
    Logged.note (.parsed file tree.statements.length) ()
    if stage = .parsed then pure (.ok .accepted)
    else
      let checked := Checked.ofTree tree
      let result ← (⟨checked.result, checked.events⟩ : Logged _)
      match result with
      | .error failure => pure (.error (.rejected failure))
      | .ok p => finish stage optimize p

end Dragon
