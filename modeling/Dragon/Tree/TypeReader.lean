import Dragon.Tree.Basic
import Dragon.Tree.Reading

/-!
# Reading type expressions

A type is a name, a list in brackets, or a function with its parameters in parentheses, each
followed by any number of question marks.
-/
namespace Dragon.Tree

/-- Wraps a type by the question marks that follow it. -/
def TypeExpr.optionals (base : TypeExpr) : List Token → TypeExpr × List Token
  | t :: rest =>
    if t.kind = .operator .question then optionals (.optional base (base.span.through t.span)) rest
    else (base, t :: rest)
  | [] => (base, [])

/-- Reads a type with nesting bounded by `fuel`. -/
def TypeExpr.readWith (eof : Token) : (fuel : Nat) → List Token → Parsed (Taken TypeExpr)
  | 0, ts => faultAt eof ts .exhausted
  | fuel + 1, ts => do
    let start := next eof ts
    let (base, ts) ← show Parsed (Taken TypeExpr) from
      match start.kind with
      | .identifier => .ok (.named start.value start.span, ts.tail)
      | .operator .lbracket => do
        let (element, ts) ← readWith eof fuel ts.tail
        let (stop, ts) ← expect eof (.operator .rbracket) ts
        pure (.list element (start.span.through stop.span), ts)
      | .operator .lparen => do
        let (params, ts) ← separated eof (.operator .rparen) (readWith eof fuel) ts.tail
        let (_, ts) ← expect eof (.operator .rparen) ts
        let (_, ts) ← expect eof (.operator .arrow) ts
        let (result, ts) ← readWith eof fuel ts
        pure (.function params result (start.span.through result.span), ts)
      | _ => .error ⟨.typeExpected, start.span⟩
    pure (base.optionals ts)

/-- Reads a type. Nesting takes a token a level, so the number of tokens bounds it. -/
def TypeExpr.read (eof : Token) (ts : List Token) : Parsed (Taken TypeExpr) :=
  readWith eof (ts.length + 1) ts

end Dragon.Tree
