/-!
# The shortest decimal of a binary number

A finite double is `m · 2 ^ q`, and the reals that round to it form an interval around it. Of the
decimals with the fewest digits that lie in the interval the nearest is taken, and of two equally
near ones the even.
-/
namespace Dragon

/-- The number `digits · 10 ^ exponent`. -/
structure Decimal where
  digits : Nat
  exponent : Int
  deriving DecidableEq, Repr

namespace Decimal

/-- The number `mantissa · 2 ^ exponent`. When `narrow`, the next smaller number is only half as
far away as the next larger one. -/
structure Binary where
  mantissa : Nat
  exponent : Int
  narrow : Bool
  deriving DecidableEq, Repr

/-- The absolute value that the bits of a finite double stand for. -/
def Binary.ofBits (bits : UInt64) : Binary :=
  let hidden := 0x10000000000000
  let fraction := bits.toNat % hidden
  let biased : Nat := bits.toNat / hidden % 0x800
  if biased == 0 then ⟨fraction, -1074, false⟩
  else ⟨hidden + fraction, (biased : Int) - 1075, fraction == 0 && 1 < biased⟩

/-- Whether the sign of a double is set. Zero and what is no number have signs too. -/
def isNegative (x : Float) : Bool := 0x8000000000000000 ≤ x.toBits.toNat

/-- A power with a whole exponent, as numerator over denominator. -/
def power (base : Nat) (exponent : Int) : Nat × Nat :=
  if 0 ≤ exponent then (base.pow exponent.toNat, 1) else (1, base.pow (-exponent).toNat)

/-- The whole number nearest to a ratio, the even one of two. -/
def roundDiv (num den : Nat) : Nat :=
  let below := num / den
  let rest := num % den
  if 2 * rest < den || (2 * rest == den && below % 2 == 0) then below else below + 1

theorem roundDiv_near (num den : Nat) (h : 0 < den) :
    2 * (roundDiv num den * den) ≤ 2 * num + den ∧
    2 * num ≤ 2 * (roundDiv num den * den) + den := by
  have hsum : den * (num / den) + num % den = num := Nat.div_add_mod num den
  have hrest : num % den < den := Nat.mod_lt _ h
  have hcomm : num / den * den = den * (num / den) := Nat.mul_comm _ _
  have hnext : (num / den + 1) * den = den * (num / den) + den := by
    rw [Nat.add_mul, Nat.one_mul, hcomm]
  simp only [roundDiv]
  split
  · next hdown =>
    simp only [Bool.or_eq_true, decide_eq_true_eq, Bool.and_eq_true, beq_iff_eq] at hdown
    omega
  · next hup =>
    simp only [Bool.or_eq_true, decide_eq_true_eq, Bool.and_eq_true, beq_iff_eq, not_or] at hup
    omega

theorem roundDiv_even_of_tie (num den : Nat) (h : 2 * (num % den) = den) :
    roundDiv num den % 2 = 0 := by
  have hlt : ¬ 2 * (num % den) < den := by omega
  simp only [roundDiv]
  split
  · next hdown =>
    simp only [Bool.or_eq_true, decide_eq_true_eq, Bool.and_eq_true, beq_iff_eq] at hdown
    omega
  · next hup =>
    simp only [Bool.or_eq_true, decide_eq_true_eq, Bool.and_eq_true, beq_iff_eq, not_or] at hup
    omega

/-- The multiple of `10 ^ k` with the nearest value, if it rounds to the number. -/
def Binary.onGrid? (b : Binary) (k : Int) : Option Nat :=
  let (twoNum, twoDen) := power 2 (b.exponent - 2)
  let (tenNum, tenDen) := power 10 k
  let unit := tenNum * twoDen
  let scale := twoNum * tenDen
  let value := 4 * b.mantissa * scale
  let low := (4 * b.mantissa - (if b.narrow then 1 else 2)) * scale
  let high := (4 * b.mantissa + 2) * scale
  let inside (d : Nat) : Bool :=
    if b.mantissa % 2 == 0 then low ≤ d * unit && d * unit ≤ high
    else low < d * unit && d * unit < high
  let below := value / unit
  let nearest := roundDiv value unit
  let other := if nearest == below then below + 1 else below
  if inside nearest then some nearest
  else if inside other then some other
  else none

/-- The number of decimal digits. -/
def digitCount (n : Nat) : Nat := (Nat.toDigits 10 n).length

/-- The place of the leading digit of `mantissa · 2 ^ exponent`: it counts ones as place one and
tenths as place zero. -/
def Binary.magnitude (b : Binary) : Int :=
  let (num, den) := power 2 b.exponent
  let num := b.mantissa * num
  if den ≤ num then digitCount (num / den) else 1 - digitCount ((den - 1) / num)

/-- The same number with at most `fuel` trailing zeros moved into the exponent. -/
def trim : (fuel : Nat) → Decimal → Decimal
  | 0, d => d
  | fuel + 1, d =>
    if d.digits != 0 && d.digits % 10 == 0 then trim fuel ⟨d.digits / 10, d.exponent + 1⟩ else d

/-- The decimal with the fewest digits that rounds to the number; seventeen are always enough. -/
def Binary.shortest (b : Binary) : Decimal :=
  if b.mantissa == 0 then ⟨0, 0⟩
  else
    let grids := (List.range 17).map fun (n : Nat) => b.magnitude - (n + 1)
    match grids.findSome? fun k => (b.onGrid? k).map fun d => (⟨d, k⟩ : Decimal) with
    | some d => d.trim 17
    | none => ⟨0, 0⟩

end Decimal

end Dragon
