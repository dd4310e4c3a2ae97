import Dragon.Token.Fault

/-!
# Reading from tokens

A reading takes tokens and gives a value and the tokens left, or the first fault. The mark of the
end of the input is kept apart, so that there is a token to name in a fault when all others have
been taken.
-/
namespace Dragon.Tree

/-- Results that may be a fault instead. -/
abbrev Parsed := Except SyntaxFault

/-- A value and the tokens left after it. -/
abbrev Taken (α : Type) := α × List Token

/-- The next token. -/
def next (eof : Token) : List Token → Token
  | t :: _ => t
  | [] => eof

/-- Whether the next token has a kind. -/
def starts (kind : Kind) (ts : List Token) : Bool := ts.head?.any (·.kind == kind)

/-- Takes a token of a kind. -/
def expect (eof : Token) (kind : Kind) : List Token → Parsed (Taken Token)
  | t :: rest =>
    if t.kind = kind then .ok (t, rest) else .error ⟨.expected kind t.found, t.span⟩
  | [] => .error ⟨.expected kind eof.found, eof.span⟩

/-- A fault at the next token. -/
def faultAt (eof : Token) (ts : List Token) (cause : SyntaxCause) : Parsed (Taken α) :=
  .error ⟨cause, (next eof ts).span⟩

/-- Takes items up to a token of a closing kind, or to the end. `fuel` bounds their number. -/
def items (eof : Token) (close : Kind) (item : List Token → Parsed (Taken α)) :
    (fuel : Nat) → List Token → Parsed (Taken (List α))
  | 0, ts => faultAt eof ts .exhausted
  | fuel + 1, ts =>
    if ts.isEmpty || starts close ts then .ok ([], ts)
    else do
      let (first, ts) ← item ts
      let (others, ts) ← items eof close item fuel ts
      pure (first :: others, ts)

/-- Takes an item after a comma. -/
def afterComma (eof : Token) (item : List Token → Parsed (Taken α)) (ts : List Token) :
    Parsed (Taken α) := do
  let (_, ts) ← expect eof (.operator .comma) ts
  item ts

/-- Takes items with commas between them, up to a token of a closing kind, or to the end. -/
def separated (eof : Token) (close : Kind) (item : List Token → Parsed (Taken α))
    (ts : List Token) : Parsed (Taken (List α)) :=
  if ts.isEmpty || starts close ts then .ok ([], ts)
  else do
    let (first, ts) ← item ts
    let (others, ts) ← items eof close (afterComma eof item) (ts.length + 1) ts
    pure (first :: others, ts)

end Dragon.Tree
