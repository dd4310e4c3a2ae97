import Dragon.Disk
import Dragon.Text.Lines
import Dragon.Text.Utf8

/-!
# Where the lines that diagnostics show come from
-/
namespace Dragon

/-- The lines of a file: of the text that is known for its name, or else of the file itself. What
can not be read has no lines. -/
def sourceLines {m : Type → Type} [Monad m] (known : List (String × String)) (disk : Disk m)
    (name : String) : m (List String) := do
  match known.lookup name with
  | some text => pure (Text.lines text)
  | none =>
    match ← disk.read? (Path.ofText name).text with
    | none => pure []
    | some bytes =>
      match Text.Utf8.decode bytes with
      | .ok text => pure (Text.lines (Text.unified text))
      | .error _ => pure []

end Dragon
