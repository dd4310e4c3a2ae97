import Dragon.Typed.Optimize
import Dragon.Typed.View

/-!
# Statements, lists and programs in places that are not theirs

What is misplaced is kept as it is shown, and as what optimization leaves of it is shown.
-/
namespace Dragon.Typed

def Residue.shown : Residue → Shown
  | one s => .one s.outline
  | list ss => .list (stmtOutlines ss)

/-- The place of an expression without anything in it. -/
def Expr.missing : Expr := .misplaced .nothing .nothing

/-- A statement in the place of an expression. -/
def Expr.ofStmt (s : Stmt) : Expr := .misplaced (.one s.outline) s.optimize.value.shown

/-- A list of statements in the place of an expression. -/
def Expr.ofBlock (ss : List Stmt) : Expr :=
  .misplaced (.list (stmtOutlines ss)) (.list (stmtOutlines (optimizeBlock ss).value))

/-- An argument outside a call. -/
def Expr.ofArg (a : Arg) : Expr :=
  let shown := (argOutlines [a]).map Shown.one |>.headD (.list [])
  .misplaced shown shown

/-- A program as a statement of another. -/
def Stmt.ofProgram (p : Program) : Stmt := .misplaced p.outline p.optimize.value.outline

/-! ### Symbols as statements -/

def Stmt.ofFunc (f : Func) (body : List Stmt) : Stmt :=
  .bare (useOfFunc f) (declaredFunc f (bodyOutlines body))

def Stmt.ofField (f : FieldInit) : Stmt := .bare (useOfMember (.field f.field)) (declaredField f)

def Stmt.ofObject (o : ObjectRef) (fields : List FieldInit) (parameters : Option (List ForgeParam))
    (methods : List Method) : Stmt :=
  .bare (useOfObject o) (declaredObject o fields parameters (methodOutlines methods))

end Dragon.Typed
