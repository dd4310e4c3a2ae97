import Dragon.Decimal.Layout
import Dragon.Text.Quoted

/-!
# Values of literals
-/
namespace Dragon.Typed

inductive Value where
  | int (n : Int)
  | float (x : Float)
  | bool (b : Bool)
  | string (s : String)

/-- Whole numbers beyond this magnitude can not be told from their neighbours at run time. -/
def largestExact : Nat := 0x1fffffffffffff

/-- Numbers from a ten-thousandth up to sixteen digits before the point are written positionally. -/
def floatLayout : Decimal.Layout where
  lowest := -4
  highest := 15
  exponentWidth := 2
  notANumber := "nan"
  infinity := "inf"

/-- The digits of a whole number, with its sign. -/
def intText (n : Int) : String :=
  let digits := String.ofList (Decimal.digitsOf n.natAbs)
  if n < 0 then "-" ++ digits else digits

/-- A value as outlines and logs show it. -/
def Value.text : Value → String
  | int n => intText n
  | float x => floatLayout.float x
  | bool b => if b then "True" else "False"
  | string s => Text.quoted s

end Dragon.Typed
