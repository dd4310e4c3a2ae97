import Dragon.Tree.TypeReader

/-!
# Reading expressions by binding powers

An infix operator continues an expression when its left power is at least the power asked for, and
its right operand is read with its right power; a right power below the left one makes it associate
to the right.
-/
namespace Dragon.Tree

/-- An infix operator: the powers on its sides, and what it makes of its operands. -/
structure Infix where
  left : Nat
  right : Nat
  build : Expr → Expr → Span → Expr

def Infix.binary (left right : Nat) (op : BinaryOp) : Infix :=
  ⟨left, right, fun l r s => .binary l op r s⟩

def infix? : Operator → Option Infix
  | .coalesce => some ⟨4, 3, .coalesce⟩
  | .or => some (.binary 5 6 .or)
  | .and => some (.binary 7 8 .and)
  | .equal => some (.binary 9 10 .eq)
  | .notEqual => some (.binary 9 10 .ne)
  | .less => some (.binary 9 10 .lt)
  | .greater => some (.binary 9 10 .gt)
  | .lessEqual => some (.binary 9 10 .le)
  | .greaterEqual => some (.binary 9 10 .ge)
  | .plus => some (.binary 11 12 .add)
  | .minus => some (.binary 11 12 .sub)
  | .star => some (.binary 13 14 .mul)
  | .slash => some (.binary 13 14 .div)
  | .power => some (.binary 17 16 .pow)
  | _ => none

/-- The power of the conditional operator. -/
def ternaryPower : Nat := 2

/-- The power that operands of unary operators are read with. -/
def unaryPower : Nat := 15

/-- The power of calls, subscripts and members. -/
def postfixPower : Nat := 19

/-- The unary operators, by the token that starts them. -/
def unary? : Kind → Option UnaryOp
  | .operator .minus => some .neg
  | .keyword .ne => some .not
  | .keyword .some => some .some
  | _ => none

namespace Expr

mutual

/-- Reads an expression whose operators all have at least a power. -/
def readWith (eof : Token) : (fuel power : Nat) → List Token → Parsed (Taken Expr)
  | 0, _, ts => faultAt eof ts .exhausted
  | fuel + 1, power, ts => do
    let (left, ts) ← readOperand eof fuel ts
    readMore eof fuel power left ts

/-- Reads what continues an expression. -/
def readMore (eof : Token) : (fuel power : Nat) → Expr → List Token → Parsed (Taken Expr)
  | 0, _, _, ts => faultAt eof ts .exhausted
  | fuel + 1, power, left, ts =>
    match ts with
    | [] => .ok (left, [])
    | t :: rest =>
      match t.kind with
      | .operator .dot =>
        if postfixPower < power then .ok (left, ts)
        else do
          let (name, rest) ← expect eof .identifier rest
          let span := left.span.through name.span
          readMore eof fuel power (.member left .plain name.value span) rest
      | .operator .questionDot =>
        if postfixPower < power then .ok (left, ts)
        else do
          let (name, rest) ← expect eof .identifier rest
          let span := left.span.through name.span
          readMore eof fuel power (.member left .optional name.value span) rest
      | .operator .lparen =>
        if postfixPower < power then .ok (left, ts)
        else do
          let (args, rest) ← separated eof (.operator .rparen) (readArgument eof fuel) rest
          let (stop, rest) ← expect eof (.operator .rparen) rest
          readMore eof fuel power (.call left args (left.span.through stop.span)) rest
      | .operator .lbracket =>
        if postfixPower < power then .ok (left, ts)
        else do
          let (subscript, rest) ← readWith eof fuel 0 rest
          let (stop, rest) ← expect eof (.operator .rbracket) rest
          readMore eof fuel power (.index left subscript (left.span.through stop.span)) rest
      | .operator .question =>
        if ternaryPower < power then .ok (left, ts)
        else do
          let (consequent, rest) ← readWith eof fuel 0 rest
          let (_, rest) ← expect eof (.operator .colon) rest
          let (alternate, rest) ← readWith eof fuel ternaryPower rest
          readMore eof fuel power
            (.ternary left consequent alternate (left.span.through alternate.span)) rest
      | .operator o =>
        match infix? o with
        | none => .ok (left, ts)
        | some i =>
          if i.left < power then .ok (left, ts)
          else do
            let (right, rest) ← readWith eof fuel i.right rest
            readMore eof fuel power (i.build left right (left.span.through right.span)) rest
      | _ => .ok (left, ts)

/-- Reads an atom or a unary operator with its operand. -/
def readOperand (eof : Token) : (fuel : Nat) → List Token → Parsed (Taken Expr)
  | 0, ts => faultAt eof ts .exhausted
  | fuel + 1, ts =>
    let t := next eof ts
    match unary? t.kind with
    | some op => do
      let (operand, ts) ← readWith eof fuel unaryPower ts.tail
      pure (.unary op operand (t.span.through operand.span), ts)
    | none =>
      match t.kind with
      | .integer => .ok (.integer t.value t.span, ts.tail)
      | .float => .ok (.float t.value t.span, ts.tail)
      | .boolean => .ok (.boolean (t.value == "shall") t.span, ts.tail)
      | .string => .ok (.string t.value t.span, ts.tail)
      | .identifier => .ok (.identifier t.value t.span, ts.tail)
      | .keyword .mine => .ok (.mine t.span, ts.tail)
      | .keyword .naught => do
        let (type, ts) ← TypeExpr.read eof ts.tail
        pure (.naught type (t.span.through type.span), ts)
      | .stringStart => do
        let (parts, ts) ← items eof .stringEnd (readPart eof fuel) (ts.length + 1) ts.tail
        let (stop, ts) ← expect eof .stringEnd ts
        pure (.interpolation parts (t.span.through stop.span), ts)
      | .operator .lparen => do
        let (inner, ts) ← readWith eof fuel 0 ts.tail
        let (_, ts) ← expect eof (.operator .rparen) ts
        pure (inner, ts)
      | .operator .lbracket => do
        let (elements, ts) ← separated eof (.operator .rbracket) (readWith eof fuel 0) ts.tail
        let (stop, ts) ← expect eof (.operator .rbracket) ts
        pure (.list elements (t.span.through stop.span), ts)
      | _ => .error ⟨.expressionExpected t.found, t.span⟩

/-- Reads an argument of a call, with its name if an identifier and a colon start it. -/
def readArgument (eof : Token) : (fuel : Nat) → List Token → Parsed (Taken Argument)
  | 0, ts => faultAt eof ts .exhausted
  | fuel + 1, ts => do
    let start := next eof ts
    let named := start.kind == .identifier && starts (.operator .colon) ts.tail
    let (value, rest) ← readWith eof fuel 0 (if named then ts.tail.tail else ts)
    let name := if named then some start.value else none
    pure (.mk name value (start.span.through value.span), rest)

/-- Reads a part of an interpolated string: text or an expression in its marks. -/
def readPart (eof : Token) : (fuel : Nat) → List Token → Parsed (Taken Expr)
  | 0, ts => faultAt eof ts .exhausted
  | fuel + 1, ts =>
    let t := next eof ts
    match t.kind with
    | .string => .ok (.string t.value t.span, ts.tail)
    | _ => do
      let (_, ts) ← expect eof .interpStart ts
      let (inner, ts) ← readWith eof fuel 0 ts
      let (_, ts) ← expect eof .interpEnd ts
      pure (inner, ts)

end

/-- Reads an expression. Every nested reading but at most two of three takes a token. -/
def read (eof : Token) (ts : List Token) : Parsed (Taken Expr) :=
  readWith eof (3 * ts.length + 3) 0 ts

end Expr

end Dragon.Tree
