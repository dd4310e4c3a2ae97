import Dragon.Token.Piece

/-!
# Tokens with their places

The pieces of a text follow one another, so the place of each is the place where the text before it
ends.
-/
namespace Dragon

/-- The tokens among pieces that start at a position. -/
def Piece.place (file : String) : Pos → List Piece → List Token
  | _, [] => []
  | start, piece :: rest =>
    let stop := start.advance piece.text
    match piece.kind with
    | none => place file stop rest
    | some kind =>
      ⟨kind, piece.value, ⟨file, start, (stop.advance piece.ahead).back⟩⟩ :: place file stop rest

namespace TokenStream

/-- The tokens of a row of characters, or its first fault. -/
def ofChars (file : String) (cs : List Char) : Except SyntaxFault TokenStream :=
  let cut := cut [] cs
  let stop := Pos.origin.advance (cut.pieces.flatMap (·.text))
  match cut.fault with
  | none =>
    .ok ⟨Piece.place file .origin cut.pieces, ⟨.eof, "", ⟨file, stop, stop.back⟩⟩⟩
  | some (cause, lead) =>
    let here := stop.advance lead
    .error ⟨cause, ⟨file, here, here⟩⟩

/-- The tokens of a source text. -/
def ofSource (file source : String) : Except SyntaxFault TokenStream := ofChars file source.toList

end TokenStream

end Dragon
