import Dragon.Check.Basic
import Dragon.Check.Number
import Dragon.Tree.Basic
import Dragon.Typed.Basic

/-!
# Checking types and expressions

Operands are checked from left to right before the rule that joins them, and the first violation
wins.
-/
namespace Dragon.Check

open Typed (Part Arg)

/-! ### Types -/

mutual

def resolve : Tree.TypeExpr → Check Ty
  | .named name span => do
    match Prim.ofName? name with
    | some p => pure (.prim p)
    | none =>
      match ← lookup name with
      | none => fail (.unknownType name) span
      | some (.object ref) => pure (.object ref)
      | some _ => fail (.notAType name) span
  | .list element _ => return .list (← resolve element)
  | .optional base _ => return .optional (← resolve base)
  | .function params result _ => do
    let params ← resolveAll params
    let result ← resolve result
    pure (.function params result [])

def resolveAll : List Tree.TypeExpr → Check (List Ty)
  | [] => pure []
  | t :: rest => do
    let t ← resolve t
    let rest ← resolveAll rest
    pure (t :: rest)

end

/-! ### Rules -/

/-- An expression whose value is used. -/
def asValue (e : Typed.Expr) (span : Span) : Check Typed.Expr := do
  require (!e.type.is .zilch) .expectedValue span
  pure e

/-- Fits an expression to a target type. An empty list takes the type of the target. -/
def coerce (e : Typed.Expr) (target : Ty) (span : Span) : Check Typed.Expr :=
  if e.isEmptyList && target.element?.isSome then pure (.emptyList target)
  else do
    require (e.type.assignable target) (.notAssignable e.type target) span
    pure e

/-- Gives an empty list the type of the other operand, if that is a list. -/
def unify (a b : Typed.Expr) : Typed.Expr × Typed.Expr :=
  if a.isEmptyList && b.type.element?.isSome then (.emptyList b.type, b)
  else if b.isEmptyList && a.type.element?.isSome then (a, .emptyList a.type)
  else (a, b)

/-- Requires something of the type of an expression. -/
def expect (holds : Bool) (what : String) (e : Typed.Expr) (span : Span) : Check Unit :=
  require holds (.expected what e.type) span

def expectBool (e : Typed.Expr) (span : Span) : Check Unit :=
  expect (e.type.is .bool) "a boolean" e span

def expectInt (e : Typed.Expr) (span : Span) : Check Unit :=
  expect (e.type.is .int) "an integer" e span

def expectNumber (e : Typed.Expr) (span : Span) : Check Unit :=
  expect e.type.isNumeric "a number" e span

def expectSameType (a b : Typed.Expr) (span : Span) : Check Unit :=
  require (a.type.equivalent b.type) (.differentOperands a.type b.type) span

/-- A literal integer. -/
def integer (text : String) (span : Span) : Check Typed.Expr :=
  match integerValue text with
  | .error failure => throw failure
  | .ok n => do
    require (n ≤ Typed.largestExact) (.tooLarge text) span
    pure (.literal (.int n) .int)

def float (text : String) : Check Typed.Expr :=
  match floatValue? text with
  | none => throw (.unreadableFloat text)
  | some x => pure (.literal (.float x) .float)

/-- A symbol used as a value. -/
def symbolValue (name : String) (span : Span) : Symbol → Check Typed.Expr
  | .var v => pure (.var v)
  | .param p => pure (.param p)
  | .func f _ => pure (.func f)
  | .object _ => fail (.typeAsValue name) span

/-- What an identifier stands for. -/
def identify (name : String) (span : Span) : Check Symbol := do
  match ← lookup name with
  | some symbol => pure symbol
  | none => fail (.undeclared name) span

/-- A list of checked elements. The first one that is no empty list decides the type, and empty
lists take it. -/
def list (elements : List Typed.Expr) (spans : List Span) : Check Typed.Expr := do
  let decisive := (elements.find? (!·.isEmptyList)).orElse fun _ => elements.head?
  let type := (decisive.map (·.type)).getD .any
  let elements :=
    if type.element?.isSome then
      elements.map fun e => if e.isEmptyList then .emptyList type else e
    else elements
  match (elements.zip spans).find? fun (e, _) => !e.type.equivalent type with
  | some (_, span) => fail .differentElements span
  | none => pure (.list elements (.list type))

def unary (op : UnaryOp) (operand : Typed.Expr) (span : Span) : Check Typed.Expr :=
  match op with
  | .neg => do
    expectNumber operand span
    pure (.unary .neg operand operand.type)
  | .not => do
    expectBool operand span
    pure (.unary .not operand .bool)
  | .some => pure (.unary .some operand (.optional operand.type))

def binary (op : BinaryOp) (left right : Typed.Expr) (leftSpan rightSpan span : Span) :
    Check Typed.Expr :=
  match op with
  | .and | .or => do
    expectBool left leftSpan
    expectBool right rightSpan
    pure (.binary op left right .bool)
  | .eq | .ne => do
    let (left, right) := unify left right
    expectSameType left right span
    pure (.binary op left right .bool)
  | .lt | .le | .gt | .ge => do
    expectNumber left leftSpan
    expectSameType left right span
    pure (.binary op left right .bool)
  | .add => do
    expect (left.type.isNumeric || left.type.is .string) "a number or string" left leftSpan
    expectSameType left right span
    pure (.binary op left right left.type)
  | .sub | .mul | .div | .pow => do
    expectNumber left leftSpan
    expectSameType left right span
    pure (.binary op left right left.type)

def subscript (collection index : Typed.Expr) (span : Span) : Check Typed.Expr :=
  match collection.type.element? with
  | some element => pure (.subscript collection index element)
  | none => do
    expect (collection.type.is .string) "a list or string" collection span
    pure (.subscript collection index .string)

/-- The object whose member is asked for, by the kind of access. -/
def receiver (object : Typed.Expr) (access : Access) (span : Span) : Check ObjectRef :=
  match access with
  | .plain =>
    match object.type.object? with
    | some ref => pure ref
    | none => fail (.expected "an object" object.type) span
  | .optional =>
    match object.type.base?.bind (·.object?) with
    | some ref => pure ref
    | none => fail (.expected "an optional object" object.type) span

/-- The type of a member; reading it through an optional object makes it optional. -/
def memberType (access : Access) (member : Member) : Ty :=
  if access == .optional && member.type.base?.isNone then .optional member.type else member.type

def member (object : Typed.Expr) (access : Access) (name : String) (objectSpan span : Span) :
    Check Typed.Expr := do
  let owner ← receiver object access objectSpan
  match (← objectInfo owner).member? name with
  | none => fail (.noField owner.name name) span
  | some member => pure (.member object access member (memberType access member))

/-- The parameters that a call has to fill, with their names where the type has them. -/
def slots (params : List Ty) (names : List String) : List (Option String × Ty) :=
  if names.isEmpty then params.map fun t => (none, t)
  else (names.zip params).map fun (n, t) => (some n, t)

def expectCount (passed required : Nat) (span : Span) : Check Unit :=
  require (passed == required) (.argumentCount required passed) span

def expectName (given wanted : Option String) (span : Span) : Check Unit :=
  match wanted, given with
  | none, _ => pure ()
  | some wanted, none => fail (.unnamedArgument wanted) span
  | some wanted, some given => require (given == wanted) (.misnamedArgument given wanted) span

/-! ### Expressions -/

mutual

def expr : Tree.Expr → Check Typed.Expr
  | .integer text span => integer text span
  | .float text _ => float text
  | .boolean value _ => pure (.literal (.bool value) .bool)
  | .string value _ => pure (.literal (.string value) .string)
  | .interpolation parts _ => return .template (← exprParts parts) .string
  | .identifier name span => do
    symbolValue name span (← identify name span)
  | .mine span => do
    match (← flags).guild with
    | none => fail .mineOutsideGuild span
    | some ref => pure (.self (.object ref))
  | .naught type _ => return .emptyOptional (.optional (← resolve type))
  | .list [] _ => pure (.emptyList (.list .any))
  | .list (first :: rest) _ => do
    let value ← asValue (← expr first) first.span
    let values ← exprValues rest
    list (value :: values) (first.span :: rest.map (·.span))
  | .unary op operand _ => do
    let value ← asValue (← expr operand) operand.span
    unary op value operand.span
  | .binary left op right span => do
    let l ← asValue (← expr left) left.span
    let r ← asValue (← expr right) right.span
    binary op l r left.span right.span span
  | .ternary test consequent alternate span => do
    let t ← expr test
    expectBool t test.span
    let c ← asValue (← expr consequent) consequent.span
    let a ← asValue (← expr alternate) alternate.span
    let (c, a) := unify c a
    expectSameType c a span
    pure (.ternary t c a c.type)
  | .coalesce optional fallback _ => do
    let o ← expr optional
    match o.type.base? with
    | none => fail (.expected "an optional" o.type) optional.span
    | some base =>
      let f ← asValue (← expr fallback) fallback.span
      let f ← coerce f base fallback.span
      pure (.coalesce o f base)
  | .call (.identifier name nameSpan) args span => do
    match ← identify name nameSpan with
    | .object ref =>
      let signature := (← objectInfo ref).signature.map fun (n, t) => (some n, t)
      expectCount args.length signature.length span
      let args ← exprArguments args signature
      pure (.construct ref args (.object ref))
    | symbol =>
      let callee ← symbolValue name nameSpan symbol
      match callee.type with
      | .function params result names =>
        let slots := slots params names
        expectCount args.length slots.length span
        let args ← exprArguments args slots
        pure (.call callee args result)
      | type => fail (.notCallable type) nameSpan
  | .call callee args span => do
    let c ← asValue (← expr callee) callee.span
    match c.type with
    | .function params result names =>
      let slots := slots params names
      expectCount args.length slots.length span
      let args ← exprArguments args slots
      pure (.call c args result)
    | type => fail (.notCallable type) callee.span
  | .index collection index _ => do
    let c ← asValue (← expr collection) collection.span
    let i ← asValue (← expr index) index.span
    expectInt i index.span
    subscript c i collection.span
  | .member object access name span => do
    let o ← asValue (← expr object) object.span
    member o access name object.span span

def exprValues : List Tree.Expr → Check (List Typed.Expr)
  | [] => pure []
  | e :: rest => do
    let value ← asValue (← expr e) e.span
    let values ← exprValues rest
    pure (value :: values)

def exprParts : List Tree.Expr → Check (List Part)
  | [] => pure []
  | .string value _ :: rest => do
    let parts ← exprParts rest
    pure (.text value :: parts)
  | e :: rest => do
    let value ← asValue (← expr e) e.span
    let parts ← exprParts rest
    pure (.hole value :: parts)

/-- Checks arguments against parameters of the same number. -/
def exprArguments : List Tree.Argument → List (Option String × Ty) → Check (List Arg)
  | .mk name value span :: args, (wanted, type) :: params => do
    expectName name wanted span
    let v ← asValue (← expr value) value.span
    let v ← coerce v type value.span
    let args ← exprArguments args params
    pure (.mk name v :: args)
  | _, _ => pure []

end

end Dragon.Check
