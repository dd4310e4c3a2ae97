import Dragon.Script.Basic
import Dragon.Typed.Fold
import Dragon.Typed.View

/-!
# Scripts of typed programs

Variables, functions, objects and the parameters of constructors are named by their first
appearance, so that no two names meet and none is a word of the script language; fields and methods
keep their names. An operand is put in parentheses unless it can be told apart without them.
-/
namespace Dragon.Script

/-- What a script has a name of its own for. -/
inductive Entity where
  | symbol (id : Nat)
  | field (owner index : Nat)
  deriving DecidableEq, Repr

/-- The names that are given so far, with their number. -/
structure Names where
  count : Nat
  given : List (Entity × Name)
  deriving Repr

/-- A thing that no script can be written for. -/
structure Unwritable where
  kind : String
  deriving DecidableEq, Repr

def Unwritable.message (u : Unwritable) : String := s!"cannot emit {u.kind}"

abbrev Writer := StateT Names (Except Unwritable)

namespace Writer

def unwritable {α : Type} (kind : String) : Writer α := fun _ => .error ⟨kind⟩

/-- A name that no other has. -/
def fresh (base : String) : Writer Name := fun names =>
  let number := names.count + 1
  .ok (⟨base, number⟩, { names with count := number })

/-- The name of an entity, given at its first appearance. -/
def nameOf (entity : Entity) (base : String) : Writer Name := fun names =>
  match names.given.lookup entity with
  | some name => .ok (name, names)
  | none =>
    let name : Name := ⟨base, names.count + 1⟩
    .ok (name, ⟨names.count + 1, (entity, name) :: names.given⟩)

def varName (v : Var) : Writer Name := nameOf (.symbol v.id) v.name

def paramName (p : ForgeParam) : Writer Name := nameOf (.symbol p.id) p.name

def funcName (f : Func) : Writer Name := nameOf (.symbol f.id) f.name

def objectName (o : ObjectRef) : Writer Name := nameOf (.symbol o.id) o.name

def fieldName (f : Field) : Writer Name := nameOf (.field f.owner f.index) f.name

def varNames : List Var → Writer (List Name)
  | [] => pure []
  | v :: rest => do
    let name ← varName v
    let names ← varNames rest
    pure (name :: names)

def paramNames : List ForgeParam → Writer (List Name)
  | [] => pure []
  | p :: rest => do
    let name ← paramName p
    let names ← paramNames rest
    pure (name :: names)

end Writer

/-! ### Expressions -/

/-- What the names of the library stand for in a script. -/
def libraryName (name : String) : Expr :=
  match name with
  | "π" => .builtin "Math.PI"
  | "sin" => .builtin "Math.sin"
  | "cos" => .builtin "Math.cos"
  | "exp" => .builtin "Math.exp"
  | "ln" => .builtin "Math.log"
  | "sqrt" => .builtin "Math.sqrt"
  | "hypot" => .builtin "Math.hypot"
  | "bytes" => .encoder
  | name => .builtin name

def operatorText : BinaryOp → String
  | .eq => "==="
  | .ne => "!=="
  | op => op.text

/-- A literal of a type. What is no whole number and yet of their type is written as it is. -/
def ofLiteral (value : Typed.Value) (type : Ty) : Expr :=
  if type.is .bool then .bool value.holds
  else match value with
    | .int n => .int n
    | .float x => .float x
    | .bool b => if type.is .int then .builtin value.text else .bool b
    | .string s => if type.is .int then .builtin s else .string s

/-- Whether the text of a literal starts with a sign. -/
def isSigned : Expr → Bool
  | .int n => n < 0
  | .float x => !x.isNaN && Decimal.isNegative x
  | .builtin text => text.toList.head? == some '-'
  | _ => false

/-- The function of the library that gives the bytes of a text. -/
def isEncoder : Typed.Expr → Bool
  | .func f => f.intrinsic && f.name == "bytes"
  | _ => false

/-- Whether an expression needs parentheses as an operand. -/
def needsGroup : Typed.Expr → Bool
  | .func f => isEncoder (.func f)
  | .literal value type => isSigned (ofLiteral value type)
  | .unary .. | .binary .. | .ternary .. | .coalesce .. => true
  | .foreignUnary .. | .foreignBinary .. => true
  | _ => false

/-- An operand with its parentheses. -/
def grouped (source : Typed.Expr) (e : Expr) : Expr := if needsGroup source then .group e else e

/-- An operation on operands that have their parentheses. Quotients of whole numbers are truncated
toward zero. -/
def ofBinary (op : BinaryOp) (left right : Expr) (type : Ty) : Expr :=
  if op == .div && type.is .int then .call (.builtin "Math.trunc") [.binary "/" left right]
  else .binary (operatorText op) left right

/-- The word for what an outline shows. -/
def kindOf (shown : Outline) : String := String.ofList (shown.title.toList.takeWhile (· != ' '))

/-- The word for something out of place. -/
def kindOfShown : Typed.Shown → String
  | .nothing => "NoneType"
  | .one outline => kindOf outline
  | .list _ => "list"

/-- An operator that the language does not have, as it is. -/
def foreignText (symbol : Option String) : String := symbol.getD "None"

open Writer

mutual

def ofExpr : Typed.Expr → Writer Expr
  | .var v => if v.intrinsic then pure (libraryName v.name) else do return .name (← varName v)
  | .param p => do return .name (← paramName p)
  | .func f => if f.intrinsic then pure (libraryName f.name) else do return .name (← funcName f)
  | .self _ => pure .this
  | .literal value type => pure (ofLiteral value type)
  | .unary .some operand _ => ofExpr operand
  | .unary .not operand _ => do
    let e ← ofExpr operand
    pure (.not (grouped operand e))
  | .unary .neg operand _ => do
    let e ← ofExpr operand
    pure (.minus (grouped operand e))
  | .binary op left right type => do
    let l ← ofExpr left
    let r ← ofExpr right
    pure (ofBinary op (grouped left l) (grouped right r) type)
  | .ternary test consequent alternate _ => do
    let t ← ofExpr test
    let c ← ofExpr consequent
    let a ← ofExpr alternate
    pure (.ternary (grouped test t) (grouped consequent c) (grouped alternate a))
  | .coalesce optional fallback _ => do
    let o ← ofExpr optional
    let f ← ofExpr fallback
    pure (.binary "??" (grouped optional o) (grouped fallback f))
  | .emptyOptional _ => pure .null
  | .list elements _ => do return .list (← ofExprs elements)
  | .emptyList _ => pure (.list [])
  | .subscript collection index _ => do
    let c ← ofExpr collection
    let i ← ofExpr index
    pure (.subscript (grouped collection c) i)
  | .member object access member _ => do
    let o ← ofExpr object
    pure (.member (grouped object o) access.text member.name)
  | .call callee args _ => do
    let values ← ofArgs args
    if isEncoder callee then pure (.encode values)
    else
      let f ← ofExpr callee
      pure (.call (grouped callee f) values)
  | .construct object args _ => do
    let values ← ofArgs args
    let name ← objectName object
    pure (.construct name values)
  | .template parts _ => do return .template (← ofParts parts)
  | .foreignUnary _ operand _ => do
    let e ← ofExpr operand
    pure (.minus (grouped operand e))
  | .foreignBinary symbol left right _ => do
    let l ← ofExpr left
    let r ← ofExpr right
    pure (.binary (foreignText symbol) (grouped left l) (grouped right r))
  | .foreignMember object symbol name _ _ => do
    let o ← ofExpr object
    pure (.member (grouped object o) (foreignText symbol) name)
  | .object _ => unwritable "ObjectType"
  | .field _ => unwritable "Field"
  | .misplaced shown _ => unwritable (kindOfShown shown)

def ofExprs : List Typed.Expr → Writer (List Expr)
  | [] => pure []
  | e :: rest => do
    let e ← ofExpr e
    let rest ← ofExprs rest
    pure (e :: rest)

def ofArgs : List Typed.Arg → Writer (List Expr)
  | [] => pure []
  | .mk _ value :: rest => do
    let value ← ofExpr value
    let rest ← ofArgs rest
    pure (value :: rest)

def ofParts : List Typed.Part → Writer (List Part)
  | [] => pure []
  | .text s :: rest => do
    let rest ← ofParts rest
    pure (.text s :: rest)
  | .hole e :: rest => do
    let e ← ofExpr e
    let rest ← ofParts rest
    pure (.hole e :: rest)

end

/-! ### Statements -/

/-- The parameters of a matter's constructor, and the fields that take them. -/
def ofFields : List Typed.FieldInit → Writer (List Name × List Setting)
  | [] => pure ([], [])
  | ⟨field, _⟩ :: rest => do
    let name ← fieldName field
    let (names, settings) ← ofFields rest
    pure (name :: names, ⟨field.name, .name name⟩ :: settings)

/-- The fields of a guild with the values of its forge. -/
def ofSettings : List Typed.FieldInit → Writer (List Setting)
  | [] => pure []
  | ⟨field, some value⟩ :: rest => do
    let value ← ofExpr value
    let rest ← ofSettings rest
    pure (⟨field.name, value⟩ :: rest)
  | ⟨_, none⟩ :: _ => unwritable "NoneType"

/-- The name for the limit of a loop, unless it is a literal. -/
def limitName : Typed.Expr → Writer (Option Name)
  | .literal .. => pure none
  | _ => do return some (← fresh "n")

mutual

def ofStmt : Typed.Stmt → Writer Stmt
  | .declare mutable v init => do
    let name ← varName v
    let init ← ofExpr init
    pure (.declare mutable name init)
  | .function f body => do
    let params ← varNames f.params
    let name ← funcName f
    let body ← ofBlock body
    pure (.function name params body)
  | .object .matter ref fields _ _ => do
    let name ← objectName ref
    let (params, settings) ← ofFields fields
    pure (.type name params settings [])
  | .object .guild ref fields parameters methods => do
    let name ← objectName ref
    let params ← paramNames (parameters.getD [])
    let settings ← ofSettings fields
    let methods ← ofMethods methods
    pure (.type name params settings methods)
  | .print e => do return .log (← ofExpr e)
  | .increment target => do return .increment (← ofExpr target)
  | .decrement target => do return .decrement (← ofExpr target)
  | .assign target source => do
    let target ← ofExpr target
    let source ← ofExpr source
    pure (.assign target source)
  | .return_ e => do return .return_ (some (← ofExpr e))
  | .shortReturn => pure (.return_ none)
  | .branch test body alternate => do
    let test ← ofExpr test
    let body ← ofBlock body
    let alternate ← ofAlternate alternate
    pure (.branch test body alternate)
  | .while_ test body => do
    let test ← ofExpr test
    let body ← ofBlock body
    pure (.while_ test body)
  | .repeat_ count body => do
    let index ← fresh "i"
    let limit ← limitName count
    let count ← ofExpr count
    let body ← ofBlock body
    pure (.repeat_ index limit count body)
  | .range iterator low kind high body => do
    let name ← varName iterator
    let low ← ofExpr low
    let high ← ofExpr high
    let body ← ofBlock body
    pure (.range name low kind high body)
  | .foreignRange iterator low _ high body => do
    let name ← varName iterator
    let low ← ofExpr low
    let high ← ofExpr high
    let body ← ofBlock body
    pure (.range name low .halfOpen high body)
  | .forEach iterator collection body => do
    let name ← varName iterator
    let collection ← ofExpr collection
    let body ← ofBlock body
    pure (.forEach name collection body)
  | .break_ => pure .break_
  | .call e => do return .expr (← ofExpr e)
  | .expr e => unwritable (kindOf e.outline)
  | .bare used _ => unwritable (kindOf used)
  | .misplaced shown _ => unwritable (kindOf shown)

def ofBlock : List Typed.Stmt → Writer (List Stmt)
  | [] => pure []
  | s :: rest => do
    let s ← ofStmt s
    let rest ← ofBlock rest
    pure (s :: rest)

def ofMethods : List Typed.Method → Writer (List Method)
  | [] => pure []
  | .mk f body :: rest => do
    let params ← varNames f.params
    let body ← ofBlock body
    let rest ← ofMethods rest
    pure (.mk f.name params body :: rest)

def ofAlternate : Typed.Alternate → Writer Alternate
  | .none => pure .none
  | .block body => do return .block (← ofBlock body)
  | .chain test body alternate => do
    let test ← ofExpr test
    let body ← ofBlock body
    let alternate ← ofAlternate alternate
    pure (.chain test body alternate)

end

/-- The script of a program. -/
def ofProgram (p : Typed.Program) : Except Unwritable (List Stmt) :=
  (ofBlock p.statements).run' ⟨0, []⟩

end Dragon.Script
