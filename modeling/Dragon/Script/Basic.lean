import Dragon.Operation

/-!
# Scripts: the part of JavaScript that programs are written in

Parentheses are part of the tree, so that the text of a script follows from it without a look at
precedence.
-/
namespace Dragon.Script

/-- A name with the number that keeps it apart from all others. -/
structure Name where
  base : String
  number : Nat
  deriving DecidableEq, Repr

mutual

inductive Expr where
  | name (n : Name)
  /-- What every script finds defined, such as `Math.PI`. -/
  | builtin (text : String)
  | this
  | null
  | int (n : Int)
  | float (x : Float)
  | bool (b : Bool)
  | string (s : String)
  | template (parts : List Part)
  | group (e : Expr)
  | not (operand : Expr)
  | minus (operand : Expr)
  | binary (symbol : String) (left right : Expr)
  | ternary (test consequent alternate : Expr)
  | list (elements : List Expr)
  | subscript (collection index : Expr)
  | member (object : Expr) (access name : String)
  | call (callee : Expr) (args : List Expr)
  | construct (type : Name) (args : List Expr)
  /-- The list of the bytes of a text. -/
  | encode (args : List Expr)
  /-- The function that gives the bytes of a text. -/
  | encoder

/-- A part of a template literal. -/
inductive Part where
  | text (s : String)
  | hole (e : Expr)

end

/-- A field that a constructor sets. -/
structure Setting where
  field : String
  value : Expr

mutual

inductive Stmt where
  | declare (mutable : Bool) (name : Name) (init : Expr)
  | function (name : Name) (params : List Name) (body : List Stmt)
  | type (name : Name) (params : List Name) (settings : List Setting) (methods : List Method)
  | log (e : Expr)
  | increment (target : Expr)
  | decrement (target : Expr)
  | assign (target source : Expr)
  | return_ (value : Option Expr)
  | branch (test : Expr) (body : List Stmt) (alternate : Alternate)
  | while_ (test : Expr) (body : List Stmt)
  /-- Counts up to a limit that is computed once when it has a name. -/
  | repeat_ (index : Name) (limit : Option Name) (count : Expr) (body : List Stmt)
  | range (iterator : Name) (low : Expr) (kind : RangeKind) (high : Expr) (body : List Stmt)
  | forEach (iterator : Name) (collection : Expr) (body : List Stmt)
  | break_
  | expr (e : Expr)

inductive Method where
  | mk (name : String) (params : List Name) (body : List Stmt)

inductive Alternate where
  | none
  | block (body : List Stmt)
  | chain (test : Expr) (body : List Stmt) (alternate : Alternate)

end

end Dragon.Script
