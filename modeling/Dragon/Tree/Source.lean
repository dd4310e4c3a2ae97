import Dragon.Token.Stream
import Dragon.Tree.StmtReader

/-!
# The syntax tree of a source text
-/
namespace Dragon.Tree

/-- Cuts a text into tokens and reads the program, reporting the first fault of either. -/
def Program.ofSource (file source : String) : Except SyntaxFault Program := do
  let stream ← TokenStream.ofSource file source
  Program.read file stream

end Dragon.Tree
