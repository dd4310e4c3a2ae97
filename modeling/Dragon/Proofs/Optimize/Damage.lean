import Dragon.Proofs.Meaning.Expr
import Dragon.Typed.Optimize

/-!
# What optimization does to an evaluation

An operation of which one operand decides the result, or does not change it, is replaced by a
shortcut, and an operand that the shortcut leaves out is not evaluated any more: its calls are lost.
On doubles a shortcut may also have another result than the operation, since `x + 0.0` is not `x`
for the negative zero and `x * 0.0` is not zero for all `x`.

`damage` collects both along an evaluation.
-/
namespace Dragon.Meaning

open Typed

/-- What stands for an operation of which not both operands matter. -/
inductive Shortcut where
  | left | right | negatedRight | one
  deriving DecidableEq, Repr

namespace Shortcut

def keepsLeft : Shortcut → Bool
  | left => true
  | right | negatedRight | one => false

def keepsRight : Shortcut → Bool
  | right | negatedRight => true
  | left | one => false

/-- The shortcut as an expression. -/
def apply (l r : Expr) (type : Ty) : Shortcut → Expr
  | left => l
  | right => r
  | negatedRight => r.negate type
  | one => .one type

/-- The value of a shortcut for an operation on two data. -/
def value (type : Ty) (a b : Datum) : Shortcut → Except Fault Datum
  | left => .ok a
  | right => .ok b
  | negatedRight => operateUnary .neg b
  | one => .ok (if type.is .int then .int 1 else .float 1.0)

end Shortcut

def shortcut? (op : BinaryOp) (l r : Expr) : Option Shortcut :=
  match op with
  | .add => if r.isZero then some .left else if l.isZero then some .right else none
  | .sub => if r.isZero then some .left else if l.isZero then some .negatedRight else none
  | .mul =>
    if r.isOne then some .left
    else if l.isOne then some .right
    else if r.isZero then some .right
    else if l.isZero then some .left
    else none
  | .div => if r.isOne then some .left else if l.isZero then some .left else none
  | .pow => if r.isZero then some .one else none
  | _ => none

theorem identity?_eq (op : BinaryOp) (l r : Expr) (type : Ty) :
    Expr.identity? op l r type = (shortcut? op l r).map (·.apply l r type) := by
  cases op <;> simp only [Expr.identity?, shortcut?, apply_ite (Option.map _), Option.map_some,
    Option.map_none, Shortcut.apply]

/-- The shortcut that an operation on simplified operands is replaced by. -/
def taken? (op : BinaryOp) (l r : Expr) (type : Ty) : Option Shortcut :=
  if (Expr.fold? op l r type).isNone && type.isNumeric then shortcut? op l r else none

/-! ### Damage -/

inductive Damage where
  /-- A call that is not made any more. -/
  | lost (c : Call)
  /-- A double that has become another one. -/
  | altered

def Damage.isLost : Damage → Bool
  | lost _ => true
  | altered => false

/-- The calls of an evaluation that is left out. -/
def callsOf {α : Type} (x : Eval α) (h : List Call) : List Damage :=
  match x h with
  | .ok (_, h₁) => (h₁.drop h.length).map .lost
  | .error _ => []

def differ : Except Fault Datum → Datum → Bool
  | .ok (.float x), .float y => decide (x ≠ y)
  | _, _ => false

/-- Damage that depends on the result of an evaluation. -/
def afterwards {α : Type} (x : Eval α) (damage : α → List Call → List Damage) (h : List Call) :
    List Damage :=
  match x h with
  | .ok (a, h₁) => damage a h₁
  | .error _ => []

/-- The damage that a shortcut does to an operation on two data. -/
def alteration (s : Shortcut) (op : BinaryOp) (type : Ty) (a b : Datum) : List Damage :=
  match operate op type a b with
  | .ok d => if differ (s.value type a b) d then [.altered] else []
  | .error _ => []

/-- The damage of an operation, with the evaluation of its operands, the damage to them and what
they are simplified to. -/
def operationDamage (op : BinaryOp) (type : Ty) (x y : Eval Datum) (D E : List Call → List Damage)
    (l r : Expr) (onLeft onRight : Eval Datum) (h : List Call) : List Damage :=
  match taken? op l r type with
  | none => D h ++ afterwards x (fun _ => E) h
  | some s =>
    D h ++ (if s.keepsLeft then [] else callsOf onLeft h) ++
      afterwards x (fun a h₁ =>
        E h₁ ++ (if s.keepsRight then [] else callsOf onRight h₁) ++
          afterwards y (fun b _ => alteration s op type a b) h₁) h

mutual

/-- The damage that optimization does to an evaluation after some calls. -/
def damage (w : World) (store : Store) : Expr → List Call → List Damage
  | .unary _ operand _ => damage w store operand
  | .binary .and left right _ => fun h =>
    damage w store left h ++
      afterwards (test (eval w store left))
        (fun b => if b = false then fun _ => [] else damage w store right) h
  | .binary .or left right _ => fun h =>
    damage w store left h ++
      afterwards (test (eval w store left))
        (fun b => if b = true then fun _ => [] else damage w store right) h
  | .binary op left right type =>
    let l := left.optimize.value
    let r := right.optimize.value
    operationDamage op type (eval w store left) (eval w store right) (damage w store left)
      (damage w store right) l r (eval w store l) (eval w store r)
  | .ternary test_ consequent alternate _ => fun h =>
    damage w store test_ h ++
      afterwards (test (eval w store test_))
        (fun b => if b then damage w store consequent else damage w store alternate) h
  | .coalesce optional fallback _ => fun h =>
    damage w store optional h ++
      afterwards (eval w store optional) (fun
        | .absent => damage w store fallback
        | _ => fun _ => []) h
  | .list elements _ => damageAll w store elements
  | .subscript collection index _ => fun h =>
    damage w store collection h ++
      afterwards (eval w store collection) (fun _ => damage w store index) h
  | .call callee args _ => afterwards (eval w store callee) fun _ => damageArgs w store args
  | .construct _ args _ => damageArgs w store args
  | .template parts _ => damageParts w store parts
  | _ => fun _ => []

def damageAll (w : World) (store : Store) : List Expr → List Call → List Damage
  | [] => fun _ => []
  | e :: rest => fun h =>
    damage w store e h ++ afterwards (eval w store e) (fun _ => damageAll w store rest) h

def damageArgs (w : World) (store : Store) : List Arg → List Call → List Damage
  | [] => fun _ => []
  | .mk _ value :: rest => fun h =>
    damage w store value h ++ afterwards (eval w store value) (fun _ => damageArgs w store rest) h

def damageParts (w : World) (store : Store) : List Part → List Call → List Damage
  | [] => fun _ => []
  | .text _ :: rest => damageParts w store rest
  | .hole e :: rest => fun h =>
    damage w store e h ++ afterwards (eval w store e) (fun _ => damageParts w store rest) h

end

end Dragon.Meaning
