import Dragon.Logged
import Dragon.Typed.Basic
import Dragon.Typed.Fold

/-!
# One step of simplification

Each operation of the language is taken on operands that are simplified already. Literal operands
are computed, operands that decide a result or do not change it are dropped.
-/
namespace Dragon.Typed

namespace Expr

/-- The value of a literal with a type of numbers. -/
def number? : Expr → Option Value
  | literal v (.prim .int) | literal v (.prim .float) => some v
  | _ => none

/-- The value of a literal truth value. -/
def truth? : Expr → Option Bool
  | literal (.bool b) (.prim .bool) => some b
  | _ => none

/-- The value of a literal with the type of truth values. -/
def boolean? : Expr → Option Value
  | literal v (.prim .bool) => some v
  | _ => none

/-- The value of a literal with the type of whole numbers. -/
def integer? : Expr → Option Value
  | literal v (.prim .int) => some v
  | _ => none

def isZero (e : Expr) : Bool := e.number?.any Value.isZero

def isOne (e : Expr) : Bool := e.number?.any Value.isOne

/-- A literal truth value. -/
def truth (b : Bool) : Expr := literal (.bool b) .bool

/-- What an expression names: the number of a symbol, and the place of a field in an object. -/
def named? : Expr → Option (Nat × Option Nat)
  | var v => some (v.id, none)
  | param p => some (p.id, none)
  | func f => some (f.id, none)
  | object o => some (o.id, none)
  | field f => some (f.owner, some f.index)
  | _ => none

/-- Two expressions that are the same name. -/
def sameName (a b : Expr) : Bool := a.named?.isSome && a.named? == b.named?

/-! ### Unary operations -/

/-- The negative of a literal is a literal, and two signs cancel. -/
def negate (operand : Expr) (type : Ty) : Expr :=
  match operand.number?.bind Value.negate? with
  | some v => literal v operand.type
  | none =>
    match operand with
    | unary .neg inner _ => inner
    | operand => unary .neg operand type

def invert (operand : Expr) (type : Ty) : Expr :=
  match operand.boolean? with
  | some v => truth (!v.holds)
  | none => unary .not operand type

def applyUnary : UnaryOp → Expr → Ty → Expr
  | .neg, operand, type => operand.negate type
  | .not, operand, type => operand.invert type
  | .some, operand, type => unary .some operand type

/-! ### Binary operations -/

/-- A literal that leaves the other operand to decide is dropped; a left operand that decides
stays alone. -/
def conjoin (left right : Expr) (type : Ty) : Expr :=
  if left.truth? == some true then right
  else if right.truth? == some true then left
  else if left.truth? == some false then left
  else binary .and left right type

def disjoin (left right : Expr) (type : Ty) : Expr :=
  if left.truth? == some false then right
  else if right.truth? == some false then left
  else if left.truth? == some true then left
  else binary .or left right type

/-- The literal that an operation on two literals gives. Only arithmetic is worth a note. -/
def fold? (op : BinaryOp) (left right : Expr) (type : Ty) : Option (Logged Expr) :=
  match left.number?, right.number? with
  | some a, some b =>
    if type.is .bool then (Value.compare? op a b).map fun r => pure (truth r)
    else (Value.arithmetic? op (type.is .int) a b).map fun r =>
      Logged.note (.folded a op b r) (literal r type)
  | _, _ =>
    match op, left.boolean?, right.boolean? with
    | .eq, some a, some b => some (pure (truth (a.equal b)))
    | .ne, some a, some b => some (pure (truth (!a.equal b)))
    | _, _, _ => none

/-- The number one of a type of numbers. -/
def one (type : Ty) : Expr := literal (if type.is .int then .int 1 else .float 1.0) type

/-- An operation of which one operand does not matter. -/
def identity? (op : BinaryOp) (left right : Expr) (type : Ty) : Option Expr :=
  match op with
  | .add => if right.isZero then some left else if left.isZero then some right else none
  | .sub =>
    if right.isZero then some left
    else if left.isZero then some (right.negate type)
    else none
  | .mul =>
    if right.isOne then some left
    else if left.isOne then some right
    else if right.isZero then some right
    else if left.isZero then some left
    else none
  | .div => if right.isOne then some left else if left.isZero then some left else none
  | .pow => if right.isZero then some (one type) else none
  | _ => none

/-- Arithmetic, comparisons and equality. -/
def combine (op : BinaryOp) (left right : Expr) (type : Ty) : Logged Expr :=
  match fold? op left right type with
  | some folded => folded
  | none =>
    match if type.isNumeric then identity? op left right type else none with
    | some e => Logged.note (.simplified op) e
    | none => pure (binary op left right type)

def applyBinary (op : BinaryOp) (left right : Expr) (type : Ty) : Logged Expr :=
  match op with
  | .and => pure (conjoin left right type)
  | .or => pure (disjoin left right type)
  | op => combine op left right type

/-! ### Choices -/

def choose (test consequent alternate : Expr) (type : Ty) : Expr :=
  match test.truth? with
  | some true => consequent
  | some false => alternate
  | none => ternary test consequent alternate type

/-- A value that is known to be there needs no fallback. -/
def orElse (optional fallback : Expr) (type : Ty) : Expr :=
  match optional with
  | emptyOptional _ => fallback
  | unary .some inner _ => inner
  | optional => coalesce optional fallback type

end Expr

end Dragon.Typed
