import Dragon.Typed.Simplify

/-!
# Optimized programs

Expressions are simplified from the leaves up, and a statement becomes the statements that are left
of it: none when it can have no effect, those of a branch when its test is known. Callees and
members are left as they are.
-/
namespace Dragon.Typed

mutual

def Expr.optimize : Expr → Logged Expr
  | .unary op operand type => do
    let operand ← operand.optimize
    pure (.applyUnary op operand type)
  | .binary op left right type => do
    let left ← left.optimize
    let right ← right.optimize
    Expr.applyBinary op left right type
  | .ternary test consequent alternate type => do
    let test ← test.optimize
    let consequent ← consequent.optimize
    let alternate ← alternate.optimize
    pure (.choose test consequent alternate type)
  | .coalesce optional fallback type => do
    let optional ← optional.optimize
    let fallback ← fallback.optimize
    pure (.orElse optional fallback type)
  | .list elements type => do
    let elements ← optimizeAll elements
    pure (.list elements type)
  | .subscript collection index type => do
    let collection ← collection.optimize
    let index ← index.optimize
    pure (.subscript collection index type)
  | .call callee args type => do
    let args ← optimizeArgs args
    pure (.call callee args type)
  | .construct object args type => do
    let args ← optimizeArgs args
    pure (.construct object args type)
  | .template parts type => do
    let parts ← optimizeParts parts
    pure (.template parts type)
  | .foreignUnary symbol operand type => do
    let operand ← operand.optimize
    pure (.foreignUnary symbol operand type)
  | .foreignBinary symbol left right type => do
    let left ← left.optimize
    let right ← right.optimize
    pure (.foreignBinary symbol left right type)
  | .misplaced _ optimized => pure (.misplaced optimized optimized)
  | e => pure e

def optimizeAll : List Expr → Logged (List Expr)
  | [] => pure []
  | e :: rest => do
    let e ← e.optimize
    let rest ← optimizeAll rest
    pure (e :: rest)

def optimizeArgs : List Arg → Logged (List Arg)
  | [] => pure []
  | .mk name value :: rest => do
    let value ← value.optimize
    let rest ← optimizeArgs rest
    pure (.mk name value :: rest)

def optimizeParts : List Part → Logged (List Part)
  | [] => pure []
  | .text s :: rest => do
    let rest ← optimizeParts rest
    pure (.text s :: rest)
  | .hole e :: rest => do
    let e ← e.optimize
    let rest ← optimizeParts rest
    pure (.hole e :: rest)

end

def optimizeFields : List FieldInit → Logged (List FieldInit)
  | [] => pure []
  | ⟨field, some value⟩ :: rest => do
    let value ← value.optimize
    let rest ← optimizeFields rest
    pure (⟨field, some value⟩ :: rest)
  | ⟨field, none⟩ :: rest => do
    let rest ← optimizeFields rest
    pure (⟨field, none⟩ :: rest)

/-! ### Statements -/

/-- What is left of a statement: one in its place, or any number of them. -/
inductive Residue where
  | one (s : Stmt)
  | list (ss : List Stmt)

def Residue.statements : Residue → List Stmt
  | one s => [s]
  | list ss => ss

/-- No statement, since `reason` shows that the one of this title has no effect. -/
def removed (title : String) (reason : Removal) : Logged Residue :=
  Logged.note (.removed title reason) (.list [])

/-- Whether a literal says that a loop is never run. -/
def idle? (count : Expr) : Option Value :=
  count.integer?.filter fun v => Value.compare? .le v (.int 0) == some true

/-- Whether a range has no members. -/
def emptyRange (kind : RangeKind) (low high : Expr) : Bool :=
  match low.integer?, high.integer? with
  | some a, some b =>
    match kind with
    | .closed => Value.compare? .gt a b == some true
    | .halfOpen => Value.compare? .ge a b == some true
  | _, _ => false

/-- What is left when an alternate is known to run. -/
def Alternate.residue : Alternate → Residue
  | .none => .list []
  | .block body => .list body
  | .chain test body alternate => .one (.branch test body alternate)

/-- An alternate without statements is none at all. -/
def Alternate.ofBlock : List Stmt → Alternate
  | [] => .none
  | body => .block body

/-- What is left of an `if` that stands as the alternate of another. -/
def chained (test : Expr) (body : List Stmt) (alternate : Alternate) : Logged Alternate :=
  match test.truth? with
  | some true => Logged.note .keptConsequent (.ofBlock body)
  | some false => Logged.note .keptAlternate alternate
  | none => pure (.chain test body alternate)

/-- What is left of an `if`. -/
def branched (test : Expr) (body : List Stmt) (alternate : Alternate) : Logged Residue :=
  match test.truth? with
  | some true => Logged.note .keptConsequent (.list body)
  | some false => Logged.note .keptAlternate alternate.residue
  | none => pure (.one (.branch test body alternate))

mutual

def Stmt.optimize : Stmt → Logged Residue
  | .declare mutable v init => do
    let init ← init.optimize
    pure (.one (.declare mutable v init))
  | .function f body => do
    let body ← if f.intrinsic then pure body else optimizeBlock body
    pure (.one (.function f body))
  | .object .matter ref fields parameters methods =>
    pure (.one (.object .matter ref fields parameters methods))
  | .object .guild ref fields parameters methods => do
    let fields ← optimizeFields fields
    let methods ← optimizeMethods methods
    pure (.one (.object .guild ref fields parameters methods))
  | .print e => do
    let e ← e.optimize
    pure (.one (.print e))
  | .increment target => do
    let target ← target.optimize
    pure (.one (.increment target))
  | .decrement target => do
    let target ← target.optimize
    pure (.one (.decrement target))
  | .assign target source => do
    let target ← target.optimize
    let source ← source.optimize
    if target.sameName source then removed "AssignmentStatement" .selfAssignment
    else pure (.one (.assign target source))
  | .return_ e => do
    let e ← e.optimize
    pure (.one (.return_ e))
  | .shortReturn => pure (.one .shortReturn)
  | .branch test body alternate => do
    let test ← test.optimize
    let body ← optimizeBlock body
    let alternate ← alternate.optimize
    branched test body alternate
  | .while_ test body => do
    let test ← test.optimize
    if test.truth? == some false then removed "WhileStatement" .falseCondition
    else
      let body ← optimizeBlock body
      pure (.one (.while_ test body))
  | .repeat_ count body => do
    let count ← count.optimize
    match idle? count with
    | some times => removed "RepeatStatement" (.repeats times)
    | none =>
      let body ← optimizeBlock body
      pure (.one (.repeat_ count body))
  | .range iterator low kind high body => do
    let low ← low.optimize
    let high ← high.optimize
    if emptyRange kind low high then removed "ForRangeStatement" .emptyRange
    else
      let body ← optimizeBlock body
      pure (.one (.range iterator low kind high body))
  | .foreignRange iterator low symbol high body => do
    let low ← low.optimize
    let high ← high.optimize
    if emptyRange .halfOpen low high then removed "ForRangeStatement" .emptyRange
    else
      let body ← optimizeBlock body
      pure (.one (.foreignRange iterator low symbol high body))
  | .forEach iterator collection body => do
    let collection ← collection.optimize
    if collection.isEmptyList then removed "ForEachStatement" .emptyList
    else
      let body ← optimizeBlock body
      pure (.one (.forEach iterator collection body))
  | .break_ => pure (.one .break_)
  | .call e => do
    let e ← e.optimize
    pure (.one (.call e))
  | .expr e => do
    let e ← e.optimize
    pure (.one (.expr e))
  | .bare used declared => pure (.one (.bare used declared))
  | .misplaced _ optimized => pure (.one (.misplaced optimized optimized))

def optimizeBlock : List Stmt → Logged (List Stmt)
  | [] => pure []
  | s :: rest => do
    let residue ← s.optimize
    let rest ← optimizeBlock rest
    pure (residue.statements ++ rest)

def optimizeMethods : List Method → Logged (List Method)
  | [] => pure []
  | .mk f body :: rest => do
    let body ← if f.intrinsic then pure body else optimizeBlock body
    let rest ← optimizeMethods rest
    pure (.mk f body :: rest)

def Alternate.optimize : Alternate → Logged Alternate
  | .none => pure .none
  | .block body => do
    let body ← optimizeBlock body
    pure (.ofBlock body)
  | .chain test body alternate => do
    let test ← test.optimize
    let body ← optimizeBlock body
    let alternate ← alternate.optimize
    chained test body alternate

end

def Program.optimize (p : Program) : Logged Program := do
  let statements ← optimizeBlock p.statements
  pure ⟨statements⟩

end Dragon.Typed
