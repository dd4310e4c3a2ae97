import Dragon.Decimal.Shortest

/-!
# Doubles as exact numbers

Every finite double is a whole multiple of the smallest positive one, `2 ^ -1074`. Doubles and whole
numbers are compared as such multiples, and the ratio of two whole numbers is rounded only once.
-/
namespace Dragon.Double

def infinity : Float := Float.ofBits 0x7ff0000000000000

/-- How often the smallest positive double goes into one. -/
def unit : Nat := Nat.pow 2 1074

/-- The absolute value of a finite double, as a multiple of the smallest positive one. -/
def magnitude (x : Float) : Nat :=
  let b := Decimal.Binary.ofBits x.toBits
  b.mantissa * Nat.pow 2 (b.exponent + 1074).toNat

/-- A finite double as a multiple of the smallest positive one. -/
def scaled (x : Float) : Int :=
  if Decimal.isNegative x then -(magnitude x : Int) else magnitude x

/-! ### Comparison -/

def orderWhole (a b : Int) : Ordering := if a < b then .lt else if a = b then .eq else .gt

/-- How two doubles compare. What is no number compares with nothing, and both zeroes are equal. -/
def order? (x y : Float) : Option Ordering :=
  if x < y then some .lt
  else if x == y then some .eq
  else if y < x then some .gt
  else none

/-- How a whole number compares with a double, without rounding the former. -/
def orderMixed? (n : Int) (x : Float) : Option Ordering :=
  if x.isNaN then none
  else if x.isInf then some (if Decimal.isNegative x then .gt else .lt)
  else some (orderWhole (n * unit) (scaled x))

/-! ### Division -/

/-- The double nearest to a ratio, the even one of two; infinity beyond the largest double. Behind
the leading fifty-three bits of the multiple everything is rounded away. A double's bits count the
doubles below it, so that a carry moves on to the next exponent by itself. -/
def nearest (num den : Nat) : Float :=
  let shift := (num * unit / den).log2 - 52
  let bits := shift * 0x10000000000000 +
    Decimal.roundDiv (num * unit) (den * Nat.pow 2 shift)
  if bits < 0x7ff0000000000000 then Float.ofBits (UInt64.ofNat bits) else infinity

/-- The quotient of two whole numbers as a double. Zero has the sign that the quotient would
have. -/
def quotient (a b : Int) : Float :=
  let q := nearest a.natAbs b.natAbs
  if decide (a < 0) == decide (b < 0) then q else -q

/-- What is left when a double is taken off another as often as possible, both without their
signs. This is a double itself. -/
def remainder (x y : Float) : Float :=
  if y.isInf && x.isFinite then x.abs
  else if x.isFinite && y.isFinite then nearest (magnitude x % magnitude y) unit
  else Float.ofBits 0x7ff8000000000000

/-- How often a double goes into another, both without their signs. The remainder is taken off
first, so that only a multiple is divided. -/
def wholeQuotient (x y : Float) : Float :=
  let q := (x.abs - remainder x y) / y.abs
  if 0.5 < q - q.floor then q.floor + 1.0 else q.floor

end Dragon.Double
