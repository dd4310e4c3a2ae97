import Dragon.Check.Violation
import Dragon.Decimal.Rounded
import Dragon.Text.Digit

/-!
# Numbers read from the text of literals

Decimal digits of every script count by their value.
-/
namespace Dragon.Check

/-- The number that decimal digits write. -/
def digitsValue? (digits : List Char) : Option Nat :=
  digits.foldlM (fun n c => (Text.decimalValue? c).map (10 * n + ·)) 0

/-- The number of decimal digits with which the text of an integer may start. -/
def digitLimit : Nat := 4300

/-- The number of decimal digits with which a text starts. -/
def leadingDigits (text : String) : Nat := (text.toList.takeWhile Text.isDecimal).length

/-- The value of an integer literal. The digits are counted before the rest is looked at, and zeros
count like the others. -/
def integerValue (text : String) : Except CheckFailure Nat :=
  if digitLimit < leadingDigits text then .error (.overlongInteger (leadingDigits text))
  else if text.isEmpty then .error (.unreadableInteger text)
  else match digitsValue? text.toList with
    | none => .error (.unreadableInteger text)
    | some n => .ok n

/-- The exponent after its mark, with its sign. -/
def exponentValue? : List Char → Option Int
  | [] => none
  | '+' :: digits => if digits.isEmpty then none else (digitsValue? digits).map Int.ofNat
  | '-' :: digits => if digits.isEmpty then none else (digitsValue? digits).map fun n => -(n : Int)
  | digits => (digitsValue? digits).map Int.ofNat

def isExponentMark (c : Char) : Bool := c == 'e' || c == 'E'

/-- The value of a float literal: digits with a point or an exponent, rounded to a double. -/
def floatValue? (text : String) : Option Float := do
  let mantissa := text.toList.takeWhile (!isExponentMark ·)
  let exponent ← match text.toList.dropWhile (!isExponentMark ·) with
    | [] => some 0
    | _ :: rest => exponentValue? rest
  let whole := mantissa.takeWhile (· != '.')
  let fraction := (mantissa.dropWhile (· != '.')).drop 1
  let digits ← digitsValue? (whole ++ fraction)
  pure (Decimal.toFloat ⟨digits, exponent - fraction.length⟩)

end Dragon.Check
