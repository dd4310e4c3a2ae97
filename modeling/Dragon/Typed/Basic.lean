import Dragon.Operation
import Dragon.Outline
import Dragon.Symbol
import Dragon.Typed.Value

/-!
# Typed programs

Names are resolved to symbols and every expression has its type. The body of a function, and the
field values and methods of a guild, stand at the declaration.

Programs that come from elsewhere than the checker may hold operators the language does not have,
and things in the place of expressions and statements that are neither. Both can be shown, and no
script can be written for the latter.
-/
namespace Dragon.Typed

/-- Something out of place, as it is shown: nothing at all, one thing or a list of things. -/
inductive Shown where
  | nothing
  | one (outline : Outline)
  | list (outlines : List Outline)

mutual

inductive Expr where
  | var (v : Var)
  | param (p : ForgeParam)
  | func (f : Func)
  | self (type : Ty)
  | literal (value : Value) (type : Ty)
  | unary (op : UnaryOp) (operand : Expr) (type : Ty)
  | binary (op : BinaryOp) (left right : Expr) (type : Ty)
  | ternary (test consequent alternate : Expr) (type : Ty)
  | coalesce (optional fallback : Expr) (type : Ty)
  | emptyOptional (type : Ty)
  | list (elements : List Expr) (type : Ty)
  | emptyList (type : Ty)
  | subscript (collection index : Expr) (type : Ty)
  | member (object : Expr) (access : Access) (member : Member) (type : Ty)
  | call (callee : Expr) (args : List Arg) (type : Ty)
  | construct (object : ObjectRef) (args : List Arg) (type : Ty)
  | template (parts : List Part) (type : Ty)
  | foreignUnary (symbol : Option String) (operand : Expr) (type : Ty)
  | foreignBinary (symbol : Option String) (left right : Expr) (type : Ty)
  /-- A member by an operator the language does not have, or what is no member, as it is shown. -/
  | foreignMember (object : Expr) (symbol : Option String) (name : String) (shown : Outline)
      (type : Ty)
  /-- The name of an object, which is no expression by itself. -/
  | object (o : ObjectRef)
  /-- The name of a field without the object it belongs to. -/
  | field (f : Field)
  /-- Something else, and what optimization leaves of it. -/
  | misplaced (shown optimized : Shown)

/-- An argument, with the name that it was passed by. -/
inductive Arg where
  | mk (name : Option String) (value : Expr)

/-- A part of an interpolated string. -/
inductive Part where
  | text (s : String)
  | hole (e : Expr)

end

namespace Expr

def type : Expr → Ty
  | var v => v.type
  | param p => p.type
  | func f => f.type
  | self t | literal _ t | unary _ _ t | binary _ _ _ t | ternary _ _ _ t | coalesce _ _ t
  | emptyOptional t | list _ t | emptyList t | subscript _ _ t | member _ _ _ t | call _ _ t
  | construct _ _ t | template _ t | foreignUnary _ _ t | foreignBinary _ _ _ t
  | foreignMember _ _ _ _ t => t
  | object o => .object o
  | field f => f.type
  | misplaced _ _ => .zilch

def isEmptyList : Expr → Bool
  | emptyList _ => true
  | _ => false

end Expr

/-- A field with the value that the construction of a guild gives it. -/
structure FieldInit where
  field : Field
  value : Option Expr

/-- Matters are written as plain records, guilds with a constructor of their own. -/
inductive ObjectKind where
  | matter | guild
  deriving DecidableEq, Repr

mutual

inductive Stmt where
  | declare (mutable : Bool) (v : Var) (init : Expr)
  | function (f : Func) (body : List Stmt)
  | object (kind : ObjectKind) (ref : ObjectRef) (fields : List FieldInit)
      (parameters : Option (List ForgeParam)) (methods : List Method)
  | print (e : Expr)
  | increment (target : Expr)
  | decrement (target : Expr)
  | assign (target source : Expr)
  | return_ (e : Expr)
  | shortReturn
  | branch (test : Expr) (body : List Stmt) (alternate : Alternate)
  | while_ (test : Expr) (body : List Stmt)
  | repeat_ (count : Expr) (body : List Stmt)
  | range (iterator : Var) (low : Expr) (kind : RangeKind) (high : Expr) (body : List Stmt)
  /-- A range with an operator the language does not have; it is taken without its upper end. -/
  | foreignRange (iterator : Var) (low : Expr) (symbol : Option String) (high : Expr)
      (body : List Stmt)
  | forEach (iterator : Var) (collection : Expr) (body : List Stmt)
  | break_
  | call (e : Expr)
  | expr (e : Expr)
  /-- A symbol that is only named, as it is shown where it is used and where it is declared. -/
  | bare (used declared : Outline)
  /-- Something else, and what optimization leaves of it. -/
  | misplaced (shown optimized : Outline)

inductive Method where
  | mk (f : Func) (body : List Stmt)

/-- What runs when the test of an `if` fails. -/
inductive Alternate where
  | none
  | block (body : List Stmt)
  | chain (test : Expr) (body : List Stmt) (alternate : Alternate)

end

structure Program where
  statements : List Stmt

end Dragon.Typed
