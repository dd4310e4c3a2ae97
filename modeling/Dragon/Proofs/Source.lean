import Dragon.Compile

/-!
# Programs by their source text, for statements about particular ones

The characters of a literal are known without decoding it, so a program is computed from these.
-/
namespace Dragon

/-- The statements that a source text is analyzed into, if it is accepted. -/
def analyzed (source : String) : List Typed.Stmt :=
  match (compile .analyzed false "" source).value with
  | .ok (.program p) => p.statements
  | _ => []

/-- Whether a source text is accepted as a program that passes a test. -/
def accepts (source : String) (test : Typed.Program → Bool) : Bool :=
  (Tree.Program.ofSource "" source).toOption.any fun tree =>
    (Checked.ofTree tree).result.toOption.any test

/-- The characters of a text. They are found by unification, from how the text is put together. -/
structure Chars (text : String) (cs : List Char) : Prop where
  toList_eq : text.toList = cs

namespace Chars

theorem lit {cs : List Char} : Chars (String.ofList cs) cs := ⟨String.toList_ofList⟩

theorem append {a b : String} {cs ds : List Char} (ha : Chars a cs) (hb : Chars b ds) :
    Chars (a ++ b) (cs ++ ds) := by
  constructor
  rw [String.toList_append, ha.toList_eq, hb.toList_eq]

variable {file source : String} {cs : List Char}

theorem stream (h : Chars source cs) :
    TokenStream.ofSource file source = TokenStream.ofChars file cs := by
  rw [TokenStream.ofSource, h.toList_eq]

theorem tree (h : Chars source cs) : Tree.Program.ofSource file source =
    TokenStream.ofChars file cs >>= Tree.Program.read file := by
  rw [Tree.Program.ofSource, h.stream]

theorem accepts {test : Typed.Program → Bool} (h : Chars source cs)
    (htest : ((TokenStream.ofChars "" cs >>= Tree.Program.read "").toOption.any fun tree =>
      (Checked.ofTree tree).result.toOption.any test) = true) :
    Dragon.accepts source test = true := by
  rwa [Dragon.accepts, h.tree]

end Chars

theorem exists_of_any {ε α : Type} {x : Except ε α} {test : α → Bool}
    (h : x.toOption.any test = true) : ∃ a, x = .ok a ∧ test a = true := by
  cases x with
  | error e => cases h
  | ok a => exact ⟨a, rfl, h⟩

theorem exists_of_accepts {source : String} {test : Typed.Program → Bool}
    (h : accepts source test = true) :
    ∃ tree program, Tree.Program.ofSource "" source = .ok tree ∧
      (Checked.ofTree tree).result = .ok program ∧ test program = true := by
  obtain ⟨tree, htree, h⟩ := exists_of_any h
  obtain ⟨program, hprogram, h⟩ := exists_of_any h
  exact ⟨tree, program, htree, hprogram, h⟩

end Dragon
