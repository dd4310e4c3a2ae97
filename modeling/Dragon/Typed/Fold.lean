import Dragon.Double
import Dragon.Operation
import Dragon.Typed.Value

/-!
# Operations on the values of literals

An operation that has no result, or none that a script could hold exactly, gives `none` and is left
to run time. Comparisons are exact, also between a whole number and a double.
-/
namespace Dragon.Typed

/-! ### Whole numbers -/

/-- A power, as long as it stays within reach: bases other than one and zero are not raised beyond
the sixty-fourth power. -/
def intPower? (a b : Int) : Option Int :=
  if b < 0 then none
  else if a == 0 then some (if b == 0 then 1 else 0)
  else if a == 1 then some 1
  else if a == -1 then some (if b % 2 == 0 then 1 else -1)
  else if 64 < b then none
  else some (a.pow b.toNat)

/-- Arithmetic on whole numbers. Division truncates toward zero. -/
def intResult? : BinaryOp → Int → Int → Option Int
  | .add, a, b => some (a + b)
  | .sub, a, b => some (a - b)
  | .mul, a, b => some (a * b)
  | .div, a, b => if b == 0 then none else some (a.tdiv b)
  | .pow, a, b => intPower? a b
  | _, _, _ => none

def foldInt? (op : BinaryOp) (a b : Int) : Option Int :=
  match intResult? op a b with
  | some r => if r.natAbs ≤ largestExact then some r else none
  | none => none

/-! ### Doubles -/

/-- A double that is a number and not infinite. -/
def finite? (x : Float) : Option Float := if x.isFinite then some x else none

def floatResult? : BinaryOp → Float → Float → Option Float
  | .add, a, b => some (a + b)
  | .sub, a, b => some (a - b)
  | .mul, a, b => some (a * b)
  | .div, a, b => if b == 0.0 then none else some (a / b)
  | .pow, a, b => some (a.pow b)
  | _, _, _ => none

def foldFloat? (op : BinaryOp) (a b : Float) : Option Float := (floatResult? op a b).bind finite?

/-- The quotient toward zero of doubles. -/
def truncatedQuotient (a b : Float) : Float :=
  let q := Double.wholeQuotient a b
  if decide (a < 0.0) == decide (b < 0.0) then q else -q

/-- Arithmetic of the whole numbers on doubles, within the range that whole numbers have. -/
def foldWholeFloat? (op : BinaryOp) (a b : Float) : Option Float :=
  let result := match op with
    | .div => if b == 0.0 then none else some (truncatedQuotient a b)
    | .pow =>
      if decide (b < 0.0) || (decide (1.0 < a.abs) && decide (64.0 < b)) then none
      else some (a.pow b)
    | op => floatResult? op a b
  match result with
  | some r => if r.abs ≤ Float.ofNat largestExact then some r else none
  | none => none

/-! ### Numbers -/

/-- What a value is in arithmetic. -/
inductive Number where
  | whole (n : Int)
  | double (x : Float)

namespace Number

/-- The double nearest to a number, unless it lies beyond all of them. -/
def toFloat? : Number → Option Float
  | whole n => finite? (Float.ofInt n)
  | double x => some x

/-- The only operations that make a double of two whole numbers. The quotient is rounded once. -/
def foldToFloat? (op : BinaryOp) (a b : Int) : Option Float :=
  match op with
  | .div => if b == 0 then none else finite? (Double.quotient a b)
  | .pow =>
    if b < 0 then do foldFloat? .pow (← (whole a).toFloat?) (← (whole b).toFloat?) else none
  | _ => none

/-- Arithmetic on numbers. Whole numbers have a whole result when `isWhole`, and otherwise a result
only where it is a double. -/
def arithmetic? (op : BinaryOp) (isWhole : Bool) : Number → Number → Option Number
  | whole a, whole b =>
    if isWhole then (foldInt? op a b).map whole else (foldToFloat? op a b).map double
  | a, b => do
    let x ← a.toFloat?
    let y ← b.toFloat?
    (if isWhole then foldWholeFloat? op x y else foldFloat? op x y).map double

def negate : Number → Number
  | whole n => whole (-n)
  | double x => double (-x)

/-- How numbers compare. What is no number compares with nothing. -/
def order? : Number → Number → Option Ordering
  | whole a, whole b => some (Double.orderWhole a b)
  | whole a, double y => Double.orderMixed? a y
  | double x, whole b => (Double.orderMixed? b x).map Ordering.swap
  | double x, double y => Double.order? x y

end Number

/-! ### Values -/

/-- What a comparison says about things in some order. Things without an order only differ. -/
def comparison? : BinaryOp → Option Ordering → Option Bool
  | .lt, o => some (o == some .lt)
  | .le, o => some (o == some .lt || o == some .eq)
  | .gt, o => some (o == some .gt)
  | .ge, o => some (o == some .gt || o == some .eq)
  | .eq, o => some (o == some .eq)
  | .ne, o => some (o != some .eq)
  | _, _ => none

namespace Value

/-- The number that a value is; truth values are one and zero. -/
def number? : Value → Option Number
  | int n => some (.whole n)
  | float x => some (.double x)
  | bool b => some (.whole (if b then 1 else 0))
  | string _ => none

def ofNumber : Number → Value
  | .whole n => int n
  | .double x => float x

def arithmetic? (op : BinaryOp) (isWhole : Bool) (a b : Value) : Option Value := do
  let x ← a.number?
  let y ← b.number?
  (Number.arithmetic? op isWhole x y).map ofNumber

def compare? (op : BinaryOp) (a b : Value) : Option Bool := do
  let x ← a.number?
  let y ← b.number?
  comparison? op (x.order? y)

/-- The number with the other sign. -/
def negate? (v : Value) : Option Value := v.number?.map fun x => ofNumber x.negate

/-- Equality of values of any kinds. -/
def equal : Value → Value → Bool
  | string s, string t => s == t
  | a, b => compare? .eq a b == some true

/-- Whether a value counts as true: everything but false, zero and the empty text. -/
def holds : Value → Bool
  | string s => !s.isEmpty
  | v => !v.equal (int 0)

/-- Whether a value is the number zero. Both zeroes of the doubles count. -/
def isZero (v : Value) : Bool := v.equal (int 0)

def isOne (v : Value) : Bool := v.equal (int 1)

end Value

end Dragon.Typed
