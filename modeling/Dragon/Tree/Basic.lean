import Dragon.Operation
import Dragon.Span

/-!
# Syntax trees

Every node keeps the span of source text that it was read from. Numbers keep their text, since what
they stand for is decided when the program is checked.
-/
namespace Dragon.Tree

inductive TypeExpr where
  | named (name : String) (span : Span)
  | list (element : TypeExpr) (span : Span)
  | optional (base : TypeExpr) (span : Span)
  | function (params : List TypeExpr) (result : TypeExpr) (span : Span)

def TypeExpr.span : TypeExpr → Span
  | named _ s | list _ s | optional _ s | function _ _ s => s

mutual

inductive Expr where
  | integer (text : String) (span : Span)
  | float (text : String) (span : Span)
  | boolean (value : Bool) (span : Span)
  | string (value : String) (span : Span)
  | interpolation (parts : List Expr) (span : Span)
  | identifier (name : String) (span : Span)
  | mine (span : Span)
  | naught (type : TypeExpr) (span : Span)
  | list (elements : List Expr) (span : Span)
  | unary (op : UnaryOp) (operand : Expr) (span : Span)
  | binary (left : Expr) (op : BinaryOp) (right : Expr) (span : Span)
  | ternary (test consequent alternate : Expr) (span : Span)
  | coalesce (optional fallback : Expr) (span : Span)
  | call (callee : Expr) (args : List Argument) (span : Span)
  | index (collection index : Expr) (span : Span)
  | member (object : Expr) (access : Access) (name : String) (span : Span)

/-- An argument of a call, with the name of its parameter if it was written. -/
inductive Argument where
  | mk (name : Option String) (value : Expr) (span : Span)

end

def Expr.span : Expr → Span
  | integer _ s | float _ s | boolean _ s | string _ s | interpolation _ s | identifier _ s
  | mine s | naught _ s | list _ s | unary _ _ s | binary _ _ _ s | ternary _ _ _ s
  | coalesce _ _ s | call _ _ s | index _ _ s | member _ _ _ s => s

structure Param where
  name : String
  type : TypeExpr
  span : Span

structure FieldDef where
  name : String
  type : TypeExpr
  span : Span

mutual

inductive Stmt where
  | declare (mutable : Bool) (name : String) (type : TypeExpr) (value : Expr) (span : Span)
  | function (definition : FunctionDef)
  | matter (name : String) (fields : List FieldDef) (span : Span)
  | guild (name : String) (fields : List FieldDef) (forge : Option Forge)
      (methods : List FunctionDef) (span : Span)
  | print (value : Expr) (span : Span)
  | assign (target value : Expr) (span : Span)
  | increment (target : Expr) (span : Span)
  | decrement (target : Expr) (span : Span)
  | return_ (value : Option Expr) (span : Span)
  | branch (test : Expr) (body : List Stmt) (alternate : Alternate) (span : Span)
  | while_ (test : Expr) (body : List Stmt) (span : Span)
  | repeat_ (count : Expr) (body : List Stmt) (span : Span)
  | range (iterator : String) (low : Expr) (kind : RangeKind) (high : Expr) (body : List Stmt)
      (span : Span)
  | forEach (iterator : String) (collection : Expr) (body : List Stmt) (span : Span)
  | break_ (span : Span)
  | call (callee : Expr) (args : List Argument) (callSpan span : Span)

/-- A function or a method. -/
inductive FunctionDef where
  | mk (name : String) (params : List Param) (result : Option TypeExpr) (body : List Stmt)
      (span : Span)

/-- The initializer of a guild. -/
inductive Forge where
  | mk (params : List Param) (body : List Stmt) (span : Span)

/-- What follows the body of an `if`: nothing, a block, or another `if` with a span of its own. -/
inductive Alternate where
  | none
  | block (body : List Stmt)
  | chain (test : Expr) (body : List Stmt) (alternate : Alternate) (span : Span)

end

def FunctionDef.name : FunctionDef → String
  | mk name _ _ _ _ => name

def FunctionDef.span : FunctionDef → Span
  | mk _ _ _ _ span => span

def Stmt.span : Stmt → Span
  | declare _ _ _ _ s | matter _ _ s | guild _ _ _ _ s | print _ s | assign _ _ s
  | increment _ s | decrement _ s | return_ _ s | branch _ _ _ s | while_ _ _ s | repeat_ _ _ s
  | range _ _ _ _ _ s | forEach _ _ _ s | break_ s | call _ _ _ s => s
  | function definition => definition.span

structure Program where
  statements : List Stmt
  span : Span

end Dragon.Tree
