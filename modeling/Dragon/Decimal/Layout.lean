import Dragon.Decimal.Shortest

/-!
# Texts of decimals

A layout says which numbers are written positionally and how the others and the numbers that are not
finite look.
-/
namespace Dragon.Decimal

/-- Numbers whose leading digit has a power of ten from `lowest` to `highest` are written
positionally, with a fraction part in every case; the others with an exponent of at least
`exponentWidth` digits and its sign. -/
structure Layout where
  lowest : Int
  highest : Int
  exponentWidth : Nat
  notANumber : String
  infinity : String
  deriving Repr

def zeroes (n : Nat) : List Char := List.replicate n '0'

/-- The digits of a natural number. -/
def digitsOf (n : Nat) : List Char := Nat.toDigits 10 n

def Layout.positional (digits : List Char) (leading : Int) : List Char :=
  if leading < 0 then '0' :: '.' :: zeroes (-leading - 1).toNat ++ digits
  else
    let whole := leading.toNat + 1
    if digits.length ≤ whole then digits ++ zeroes (whole - digits.length) ++ ['.', '0']
    else digits.take whole ++ '.' :: digits.drop whole

def Layout.scientific (l : Layout) (digits : List Char) (leading : Int) : List Char :=
  let power := digitsOf leading.natAbs
  let fraction := match digits.drop 1 with
    | [] => []
    | rest => '.' :: rest
  digits.take 1 ++ fraction ++ 'e' :: (if leading < 0 then '-' else '+') ::
    zeroes (l.exponentWidth - power.length) ++ power

def Layout.decimal (l : Layout) (d : Decimal) : List Char :=
  let digits := digitsOf d.digits
  let leading := d.exponent + (digits.length - 1 : Nat)
  if l.lowest ≤ leading && leading ≤ l.highest then positional digits leading
  else l.scientific digits leading

/-- The text of a double. -/
def Layout.float (l : Layout) (x : Float) : String :=
  if x.isNaN then l.notANumber
  else
    let magnitude :=
      if x.isInf then l.infinity
      else String.ofList (l.decimal (Binary.ofBits x.toBits).shortest)
    if isNegative x then "-" ++ magnitude else magnitude

end Dragon.Decimal
