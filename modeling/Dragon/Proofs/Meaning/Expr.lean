import Dragon.Proofs.Meaning.Step
import Dragon.Typed.Basic

/-!
# The meaning of expressions

Operands are evaluated from left to right, and `and`, `or`, choices and fallbacks only evaluate what
they need. A call is an event: the world answers it with any datum at all, which may depend on the
calls before it. What a member of an object holds and how a datum is written is up to the world,
too.
-/
namespace Dragon.Meaning

open Typed (Expr Arg Part)

inductive Callee where
  | function (f : Datum)
  | constructor (object : Nat)

structure Call where
  callee : Callee
  args : List Datum

/-- What a program can not know by itself. -/
structure World where
  reply : List Call → Call → Datum
  member : List Call → Datum → Access → Member → Except Fault Datum
  self : Datum
  text : Datum → String

/-- Variables, parameters and functions are kept by their numbers. -/
abbrev Store := Nat → Option Datum

/-- Evaluation, with all calls so far. -/
abbrev Eval := Step (List Call)

def read (store : Store) (id : Nat) : Eval Datum :=
  match store id with
  | some d => pure d
  | none => fault .unbound

def truthOf : Datum → Except Fault Bool
  | .bool b => .ok b
  | _ => .error .mismatch

/-- The truth value that an evaluation must have. -/
def test (x : Eval Datum) : Eval Bool := do lift (truthOf (← x))

/-- The second evaluation only happens when the first one does not decide. -/
def shortCircuit (decisive : Bool) (x y : Eval Datum) : Eval Datum := do
  if (← test x) = decisive then pure (.bool decisive) else return .bool (← test y)

def choice (x y z : Eval Datum) : Eval Datum := do if ← test x then y else z

/-- The content of an optional, or what stands in for it. -/
def content (y : Eval Datum) : Datum → Eval Datum
  | .absent => y
  | .present d => pure d
  | _ => fault .mismatch

def perform (w : World) (c : Call) : Eval Datum := fun calls => .ok (w.reply calls c, calls ++ [c])

/-- What a member of an object holds after the calls so far. -/
def inspect (w : World) (object : Datum) (access : Access) (member : Member) : Eval Datum :=
  fun calls => lift (w.member calls object access member) calls

mutual

def eval (w : World) (store : Store) : Expr → Eval Datum
  | .var v => read store v.id
  | .param p => read store p.id
  | .func f => read store f.id
  | .self _ => pure w.self
  | .literal value type =>
    match literal? value type with
    | some d => pure d
    | none => fault .mismatch
  | .unary op operand _ => do
    let d ← eval w store operand
    lift (operateUnary op d)
  | .binary .and left right _ => shortCircuit false (eval w store left) (eval w store right)
  | .binary .or left right _ => shortCircuit true (eval w store left) (eval w store right)
  | .binary op left right type => do
    let a ← eval w store left
    let b ← eval w store right
    lift (operate op type a b)
  | .ternary test consequent alternate _ =>
    choice (eval w store test) (eval w store consequent) (eval w store alternate)
  | .coalesce optional fallback _ => eval w store optional >>= content (eval w store fallback)
  | .emptyOptional _ => pure .absent
  | .list elements _ => do
    let ds ← evalAll w store elements
    pure (.list ds)
  | .emptyList _ => pure (.list [])
  | .subscript collection index _ => do
    let c ← eval w store collection
    let i ← eval w store index
    lift (elementAt c i)
  | .member object access member _ => do
    let o ← eval w store object
    inspect w o access member
  | .call callee args _ => do
    let f ← eval w store callee
    let ds ← evalArgs w store args
    perform w ⟨.function f, ds⟩
  | .construct object args _ => do
    let ds ← evalArgs w store args
    perform w ⟨.constructor object.id, ds⟩
  | .template parts _ => do
    let s ← evalParts w store parts
    pure (.string s)
  | .foreignUnary _ _ _ | .foreignBinary _ _ _ _ | .foreignMember _ _ _ _ _ | .object _ | .field _
  | .misplaced _ _ => fault .mismatch

def evalAll (w : World) (store : Store) : List Expr → Eval (List Datum)
  | [] => pure []
  | e :: rest => do
    let d ← eval w store e
    let ds ← evalAll w store rest
    pure (d :: ds)

def evalArgs (w : World) (store : Store) : List Arg → Eval (List Datum)
  | [] => pure []
  | .mk _ value :: rest => do
    let d ← eval w store value
    let ds ← evalArgs w store rest
    pure (d :: ds)

def evalParts (w : World) (store : Store) : List Part → Eval String
  | [] => pure ""
  | .text s :: rest => do
    let t ← evalParts w store rest
    pure (s ++ t)
  | .hole e :: rest => do
    let d ← eval w store e
    let t ← evalParts w store rest
    pure (w.text d ++ t)

end

end Dragon.Meaning
