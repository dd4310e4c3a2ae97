import Dragon.Typed.Fold
import Dragon.Type.Basic
import Mathlib.Algebra.Group.Int.Defs

/-!
# Data of running programs and the operations on them

Whole numbers are exact, division truncates toward zero, optionals are tagged and lists are values.
An operation on data that it is not made for has no result but a fault.
-/
namespace Dragon.Meaning

open Typed (Value)

inductive Datum where
  | int (n : Int)
  | float (x : Float)
  | bool (b : Bool)
  | string (s : String)
  | absent
  | present (d : Datum)
  | list (ds : List Datum)
  /-- A function or method, known by a number. -/
  | function (id : Nat)
  /-- An object, known by where it is kept. -/
  | object (place : Nat)

inductive Fault where
  | divisionByZero | negativeExponent | outOfRange | unbound | mismatch
  /-- A loop has used up the rounds that it was given. -/
  | unfinished
  deriving DecidableEq, Repr

namespace Datum

def isInt (n : Int) : Datum → Bool
  | int m => m == n
  | _ => false

theorem eq_int {n : Int} {d : Datum} (h : d.isInt n = true) : d = int n := by
  cases d with
  | int m => exact congrArg int (beq_iff_eq.1 h)
  | _ => cases h

mutual

/-- Equality at run time. Numbers are compared by their value, lists by their elements. -/
def same : Datum → Datum → Bool
  | int a, int b => a == b
  | int a, float y => Double.orderMixed? a y == some .eq
  | float x, int b => Double.orderMixed? b x == some .eq
  | float x, float y => Double.order? x y == some .eq
  | bool a, bool b => a == b
  | string s, string t => s == t
  | absent, absent => true
  | present a, present b => a.same b
  | list as, list bs => sameAll as bs
  | function f, function g => f == g
  | object a, object b => a == b
  | _, _ => false

def sameAll : List Datum → List Datum → Bool
  | [], [] => true
  | a :: as, b :: bs => a.same b && sameAll as bs
  | _, _ => false

end

end Datum

/-- The datum that a literal of a type stands for. -/
def literal? : Value → Ty → Option Datum
  | .int n, .int => some (.int n)
  | .float x, .float => some (.float x)
  | .bool b, .bool => some (.bool b)
  | .string s, .string => some (.string s)
  | _, _ => none

/-! ### Operations -/

def intArithmetic : BinaryOp → Int → Int → Except Fault Int
  | .add, a, b => .ok (a + b)
  | .sub, a, b => .ok (a - b)
  | .mul, a, b => .ok (a * b)
  | .div, a, b => if b = 0 then .error .divisionByZero else .ok (a.tdiv b)
  | .pow, a, b => if b < 0 then .error .negativeExponent else .ok (a ^ b.toNat)
  | _, _, _ => .error .mismatch

def floatArithmetic : BinaryOp → Float → Float → Except Fault Float
  | .add, a, b => .ok (a + b)
  | .sub, a, b => .ok (a - b)
  | .mul, a, b => .ok (a * b)
  | .div, a, b => .ok (a / b)
  | .pow, a, b => .ok (a.pow b)
  | _, _, _ => .error .mismatch

def compareInts : BinaryOp → Int → Int → Except Fault Bool
  | .lt, a, b => .ok (decide (a < b))
  | .le, a, b => .ok (decide (a ≤ b))
  | .gt, a, b => .ok (decide (b < a))
  | .ge, a, b => .ok (decide (b ≤ a))
  | _, _, _ => .error .mismatch

/-- What is no number is neither smaller nor greater than anything, nor equal to it. -/
def compareFloats (op : BinaryOp) (x y : Float) : Except Fault Bool :=
  match Typed.comparison? op (Double.order? x y) with
  | some r => .ok r
  | none => .error .mismatch

def compare : BinaryOp → Datum → Datum → Except Fault Bool
  | .eq, a, b => .ok (a.same b)
  | .ne, a, b => .ok (!a.same b)
  | op, .int a, .int b => compareInts op a b
  | op, .float x, .float y => compareFloats op x y
  | _, _, _ => .error .mismatch

/-- A binary operation with a result of a type. Both operands of arithmetic have that type, and
comparisons have truth values for results. -/
def operate (op : BinaryOp) (type : Ty) (a b : Datum) : Except Fault Datum :=
  match type, a, b with
  | .int, .int a, .int b => (intArithmetic op a b).map .int
  | .float, .float a, .float b => (floatArithmetic op a b).map .float
  | .string, .string s, .string t => if op = .add then .ok (.string (s ++ t)) else .error .mismatch
  | .bool, a, b => (compare op a b).map .bool
  | _, _, _ => .error .mismatch

def operateUnary : UnaryOp → Datum → Except Fault Datum
  | .neg, .int n => .ok (.int (-n))
  | .neg, .float x => .ok (.float (-x))
  | .not, .bool b => .ok (.bool !b)
  | .some, d => .ok (.present d)
  | _, _ => .error .mismatch

/-- An element of a list or a character of a text, counted from zero. -/
def elementAt : Datum → Datum → Except Fault Datum
  | .list ds, .int n =>
    match if n < 0 then none else ds[n.toNat]? with
    | some d => .ok d
    | none => .error .outOfRange
  | .string s, .int n =>
    match if n < 0 then none else s.toList[n.toNat]? with
    | some c => .ok (.string (String.singleton c))
    | none => .error .outOfRange
  | _, _ => .error .mismatch

end Dragon.Meaning
