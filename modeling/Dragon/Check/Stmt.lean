import Dragon.Check.Expr

/-!
# Checking statements

Functions, matters and guilds are declared before what stands inside them is checked, so that they
can refer to themselves; variables after their initial value.
-/
namespace Dragon.Check

/-! ### Assignment -/

/-- Whether a value can be stored at an expression: a variable that is not constant, or an element
or a field of something that can change. -/
def isMutable : Typed.Expr → Bool
  | .var v => v.mutable
  | .subscript collection _ _ => collection.type.element?.isSome && isMutable collection
  | .member object .plain (.field _) _ => isMutable object
  | .self _ => true
  | _ => false

/-- The violation of assigning to an expression that cannot change. -/
def immutable : Typed.Expr → Violation
  | .var v => .constantTarget v.name
  | .param p => .constantTarget p.name
  | .func f => .constantTarget f.name
  | _ => .immutableTarget

def expectMutable (target : Typed.Expr) (span : Span) : Check Unit :=
  require (isMutable target) (immutable target) span

/-! ### Declarations -/

def newVar (name : String) (type : Ty) (mutable : Bool) : Check Var :=
  return ⟨← fresh, name, type, mutable, false⟩

/-- A value for a target of a type. -/
def valueFor (type : Ty) (e : Tree.Expr) : Check Typed.Expr := do
  let value ← asValue (← expr e) e.span
  coerce value type e.span

def declaration (mutable : Bool) (name : String) (type : Tree.TypeExpr) (value : Tree.Expr)
    (span : Span) : Check Typed.Stmt := do
  let t ← resolve type
  require (!t.is .zilch) (.zilchVariable name) type.span
  let init ← valueFor t value
  let v ← newVar name t mutable
  declare name (.var v) span
  pure (.declare mutable v init)

def params : List Tree.Param → Check (List Var)
  | [] => pure []
  | p :: rest => do
    let v ← newVar p.name (← resolve p.type) false
    let rest ← params rest
    pure (v :: rest)

/-- The signature of a function whose number is known. -/
def signature (id : Nat) (name : String) (parameters : List Tree.Param)
    (result : Option Tree.TypeExpr) (isMethod : Bool) : Check Func := do
  let vars ← params parameters
  let result ← match result with
    | none => pure .zilch
    | some type => resolve type
  let type := .function (vars.map (·.type)) result (vars.map (·.name))
  pure ⟨id, name, vars, type, isMethod, false⟩

/-- Declares a function by its name alone, then resolves its signature. -/
def declareFunction (name : String) (parameters : List Tree.Param)
    (result : Option Tree.TypeExpr) (span : Span) : Check Func := do
  let id ← fresh
  declare name (.func ⟨id, name, [], .function [] .zilch [], false, false⟩ false) span
  let f ← signature id name parameters result false
  update name (.func f true)
  pure f

def declareParams : List Var → List Tree.Param → Check Unit
  | v :: vars, p :: rest => do
    declare v.name (.var v) p.span
    declareParams vars rest
  | _, _ => pure ()

/-- Declares an object of which nothing else is known yet. -/
def declareObject (name : String) (parameters : Option (List ForgeParam)) (span : Span) :
    Check ObjectRef := do
  let ref := ⟨← fresh, name⟩
  addObject ⟨ref, [], parameters, []⟩
  declare name (.object ref) span
  pure ref

/-- Adds the fields of an object one by one. -/
def addFields (ref : ObjectRef) : List Tree.FieldDef → Check Unit
  | [] => pure ()
  | f :: rest => do
    let known := (← objectInfo ref).fields
    require (known.all (·.name != f.name)) (.repeatedField f.name) f.span
    let type ← resolve f.type
    require (!type.is .zilch) (.zilchField f.name) f.type.span
    modifyObject ref fun o =>
      { o with fields := o.fields ++ [⟨ref.id, o.fields.length, f.name, type⟩] }
    addFields ref rest

/-- The fields of an object that does not contain itself. -/
def objectFields (ref : ObjectRef) (definitions : List Tree.FieldDef) (span : Span) :
    Check (List Field) := do
  addFields ref definitions
  require (!(← get).objects.selfContaining ref.id) (.selfContaining ref.name) span
  return (← objectInfo ref).fields

/-- Adds the methods of a guild by their signatures. -/
def addMethods (ref : ObjectRef) : List Tree.FunctionDef → Check Unit
  | [] => pure ()
  | .mk name parameters result _ span :: rest => do
    let known ← objectInfo ref
    require ((known.member? name).isNone) (.repeatedMember name ref.name) span
    let f ← signature (← fresh) name parameters result true
    modifyObject ref fun o => { o with methods := o.methods ++ [f] }
    addMethods ref rest

/-! ### Forges -/

/-- Declares the parameters of a forge one by one. -/
def forgeParams : List Tree.Param → Check (List ForgeParam)
  | [] => pure []
  | p :: rest => do
    let param := ⟨← fresh, p.name, ← resolve p.type⟩
    declare p.name (.param param) p.span
    let rest ← forgeParams rest
    pure (param :: rest)

/-- The field that a statement of a forge gives a value. -/
def forgeTarget (ref : ObjectRef) : Tree.Stmt → Check (Field × Tree.Expr)
  | .assign (.member (.mine _) .plain name targetSpan) value _ => do
    match (← objectInfo ref).member? name with
    | some (.field f) => pure (f, value)
    | _ => fail (.noField ref.name name) targetSpan
  | s => fail (.forgeStatement ref.name) s.span

/-- The values that a forge gives to fields, in its order. -/
def forgeBody (ref : ObjectRef) :
    List (String × Typed.Expr) → List Tree.Stmt → Check (List (String × Typed.Expr))
  | assigned, [] => pure assigned
  | assigned, s :: rest => do
    let (field, value) ← forgeTarget ref s
    require (assigned.all (·.1 != field.name)) (.initializedTwice field.name) s.span
    let value ← valueFor field.type value
    forgeBody ref (assigned ++ [(field.name, value)]) rest

def forge (ref : ObjectRef) : Option Tree.Forge → Check (List (String × Typed.Expr))
  | none => pure []
  | some (.mk parameters body _) =>
    nested (fun _ => ⟨false, none, some ref⟩) do
      let ps ← forgeParams parameters
      modifyObject ref fun o => { o with parameters := some ps }
      forgeBody ref [] body

/-- The fields with the values that the forge gives them; every field needs one. -/
def initialFields (ref : ObjectRef) (fields : List Field) (definition : Option Tree.Forge)
    (span : Span) : Check (List Typed.FieldInit) := do
  let values ← forge ref definition
  let missing := fields.filter fun f => values.all (·.1 != f.name)
  let place := match definition with
    | some (.mk _ _ span) => span
    | none => span
  require missing.isEmpty (.uninitialized ref.name (missing.map (·.name))) place
  pure (fields.map fun f => ⟨f, values.lookup f.name⟩)

/-! ### Statements -/

def checkReturn (value : Option Tree.Expr) (span : Span) : Check Typed.Stmt := do
  match (← flags).function with
  | none => fail .returnOutsideFunction span
  | some f =>
    match value with
    | none =>
      require (f.result.is .zilch) (.missingResult f.name) span
      pure .shortReturn
    | some e =>
      require (!f.result.is .zilch) (.unexpectedResult f.name) span
      return .return_ (← valueFor f.result e)

def inLoop (f : Flags) : Flags := { f with inLoop := true }

mutual

def stmt : Tree.Stmt → Check Typed.Stmt
  | .declare mutable name type value span => declaration mutable name type value span
  | .function (.mk name parameters result body span) => do
    let f ← declareFunction name parameters result span
    let body ← nested (fun _ => ⟨false, some f, none⟩) do
      declareParams f.params parameters
      block body
    emit (.analyzed false name)
    pure (.function f body)
  | .matter name definitions span => do
    let ref ← declareObject name none span
    let fields ← objectFields ref definitions span
    pure (.object .matter ref (fields.map fun f => ⟨f, none⟩) none [])
  | .guild name definitions definition methodDefs span => do
    let ref ← declareObject name (some []) span
    let fields ← objectFields ref definitions span
    addMethods ref methodDefs
    let inits ← initialFields ref fields definition span
    let known ← objectInfo ref
    let bodies ← methods ref known.methods methodDefs
    pure (.object .guild ref inits known.parameters bodies)
  | .print value _ => return .print (← asValue (← expr value) value.span)
  | .assign target value _ => do
    let t ← expr target
    expectMutable t target.span
    let source ← valueFor t.type value
    pure (.assign t source)
  | .increment target _ => do
    let t ← expr target
    expectNumber t target.span
    expectMutable t target.span
    pure (.increment t)
  | .decrement target _ => do
    let t ← expr target
    expectNumber t target.span
    expectMutable t target.span
    pure (.decrement t)
  | .return_ value span => checkReturn value span
  | .branch test body alt _ => do
    let t ← expr test
    expectBool t test.span
    let body ← nested id (block body)
    let alt ← alternate alt
    pure (.branch t body alt)
  | .while_ test body _ => do
    let t ← expr test
    expectBool t test.span
    let body ← nested inLoop (block body)
    pure (.while_ t body)
  | .repeat_ count body _ => do
    let n ← expr count
    expectInt n count.span
    let body ← nested inLoop (block body)
    pure (.repeat_ n body)
  | .range iterator low kind high body span => do
    let l ← expr low
    expectInt l low.span
    let h ← expr high
    expectInt h high.span
    let v ← newVar iterator .int false
    let body ← nested inLoop do
      declare iterator (.var v) span
      block body
    pure (.range v l kind h body)
  | .forEach iterator collection body span => do
    let c ← expr collection
    match c.type.element? with
    | none => fail (.expected "a list" c.type) collection.span
    | some element =>
      let v ← newVar iterator element false
      let body ← nested inLoop do
        declare iterator (.var v) span
        block body
      pure (.forEach v c body)
  | .break_ span => do
    require (← flags).inLoop .breakOutsideLoop span
    pure .break_
  | .call callee args span _ => return .call (← expr (.call callee args span))

def block : List Tree.Stmt → Check (List Typed.Stmt)
  | [] => pure []
  | s :: rest => do
    let s ← stmt s
    let rest ← block rest
    pure (s :: rest)

def alternate : Tree.Alternate → Check Typed.Alternate
  | .none => pure .none
  | .block body => return .block (← nested id (block body))
  | .chain test body alt _ => do
    let t ← expr test
    expectBool t test.span
    let body ← nested id (block body)
    let alt ← alternate alt
    pure (.chain t body alt)

/-- The bodies of the methods of a guild. -/
def methods (ref : ObjectRef) : List Func → List Tree.FunctionDef → Check (List Typed.Method)
  | f :: fs, .mk name parameters _ body _ :: rest => do
    let body ← nested (fun _ => ⟨false, some f, some ref⟩) do
      declareParams f.params parameters
      block body
    emit (.analyzed true name)
    let rest ← methods ref fs rest
    pure (.mk f body :: rest)
  | _, _ => pure []

end

end Dragon.Check

namespace Dragon

/-- What a check leaves behind: its result, and the state at its end or failure. -/
structure Checked where
  result : Except CheckFailure Typed.Program
  state : Check.State

/-- Checks a whole program. -/
def Checked.ofTree (p : Tree.Program) : Checked :=
  match (Check.block p.statements).run .initial with
  | .ok statements state => ⟨.ok ⟨statements⟩, state⟩
  | .error failure state => ⟨.error failure, state⟩

/-- What was done, in order. -/
def Checked.events (c : Checked) : List Event := c.state.events.reverse

end Dragon
