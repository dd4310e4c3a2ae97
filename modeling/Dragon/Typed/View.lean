import Dragon.Typed.Basic

/-!
# The outline of a typed program

A symbol is shown in full where it is declared and as one line where it is used.
-/
namespace Dragon.Typed

def boolEntry (label : String) (b : Bool) : Entry := .text label (Value.text (.bool b))

def nameEntry (name : String) : Entry := .text "name" (Text.quoted name)

def opEntry (op : String) : Entry := .text "op" (Text.quoted op)

/-- An operator that may be missing. -/
def foreignOp (op : Option String) : List Entry := (op.map opEntry).toList

def typeEntry (t : Ty) : Entry := .text "type" t.describe

/-- The line of a symbol that is used. -/
def useOf (kind name : String) (t : Ty) : Outline := .leaf s!"{kind} {name}: {t.describe}"

def useOfVar (v : Var) : Outline := useOf "Variable" v.name v.type

def useOfFunc (f : Func) : Outline := useOf "Function" f.name f.type

def useOfObject (o : ObjectRef) : Outline := useOf "ObjectType" o.name (.object o)

def useOfMember : Member → Outline
  | .field f => useOf "Field" f.name f.type
  | .method m => useOfFunc m

/-- Something out of place as an item among others. -/
def Shown.outline : Shown → Outline
  | .nothing => .leaf "None"
  | .one outline => outline
  | .list [] => .leaf "[]"
  | .list _ => .leaf "[...]"

/-- The entry of an expression with its outline. Where nothing stands there is no entry, and a list
is shown as such. -/
def entryOf (label : String) : Expr → Outline → List Entry
  | .misplaced .nothing _, _ => []
  | .misplaced (.list outlines) _, _ => [.items label outlines]
  | _, outline => [.child label outline]

mutual

def Expr.outline : Expr → Outline
  | .var v => useOfVar v
  | .param p => useOf "FieldArgument" p.name p.type
  | .func f => useOfFunc f
  | .self t => .node "SelfReference" [typeEntry t]
  | .literal value t => .node "Literal" [.text "value" value.text, typeEntry t]
  | .unary op operand t =>
    .node "UnaryExpression"
      (opEntry op.text :: entryOf "operand" operand operand.outline ++ [typeEntry t])
  | .binary op left right t =>
    .node "BinaryExpression"
      (opEntry op.text :: entryOf "left" left left.outline ++
        entryOf "right" right right.outline ++ [typeEntry t])
  | .ternary test consequent alternate t =>
    .node "TernaryExpression"
      (entryOf "test" test test.outline ++ entryOf "consequent" consequent consequent.outline ++
        entryOf "alternate" alternate alternate.outline ++ [typeEntry t])
  | .coalesce optional fallback t =>
    .node "NilCoalescingExpression"
      (entryOf "optional" optional optional.outline ++
        entryOf "fallback" fallback fallback.outline ++ [typeEntry t])
  | .emptyOptional t => .node "EmptyOptional" [typeEntry t]
  | .list elements t =>
    .node "ListExpression" [.items "elements" (exprOutlines elements), typeEntry t]
  | .emptyList t => .node "EmptyListExpression" [typeEntry t]
  | .subscript collection index t =>
    .node "SubscriptExpression"
      (entryOf "collection" collection collection.outline ++
        entryOf "index" index index.outline ++ [typeEntry t])
  | .member object access member t =>
    .node "MemberExpression"
      (entryOf "object" object object.outline ++
        [opEntry access.text, .child "member" (useOfMember member), typeEntry t])
  | .call callee args t =>
    .node "FunctionCall"
      (entryOf "callee" callee callee.outline ++ [.items "args" (argOutlines args), typeEntry t])
  | .construct object args t =>
    .node "ObjectCall"
      [.child "callee" (useOfObject object), .items "args" (argOutlines args), typeEntry t]
  | .template parts t =>
    .node "StringExpression" [.items "parts" (partOutlines parts), typeEntry t]
  | .foreignUnary symbol operand t =>
    .node "UnaryExpression"
      (foreignOp symbol ++ entryOf "operand" operand operand.outline ++ [typeEntry t])
  | .foreignBinary symbol left right t =>
    .node "BinaryExpression"
      (foreignOp symbol ++ entryOf "left" left left.outline ++
        entryOf "right" right right.outline ++ [typeEntry t])
  | .foreignMember object symbol _ shown t =>
    .node "MemberExpression"
      (entryOf "object" object object.outline ++ foreignOp symbol ++
        [.child "member" shown, typeEntry t])
  | .object o => useOfObject o
  | .field f => useOfMember (.field f)
  | .misplaced shown _ => shown.outline

def exprOutlines : List Expr → List Outline
  | [] => []
  | e :: rest => e.outline :: exprOutlines rest

def argOutlines : List Arg → List Outline
  | [] => []
  | .mk name value :: rest =>
    .node "Argument" ((name.map nameEntry).toList ++ entryOf "value" value value.outline) ::
      argOutlines rest

def partOutlines : List Part → List Outline
  | [] => []
  | .text s :: rest => .leaf (Text.quoted s) :: partOutlines rest
  | .hole e :: rest => e.outline :: partOutlines rest

end

/-! ### Symbols in full -/

def declaredVar (v : Var) : Outline :=
  .node "Variable"
    [nameEntry v.name, typeEntry v.type, boolEntry "mutable" v.mutable,
     boolEntry "intrinsic" v.intrinsic]

def declaredParam (p : ForgeParam) : Outline :=
  .node "FieldArgument" [nameEntry p.name, typeEntry p.type]

def declaredFunc (f : Func) (body : List Outline) : Outline :=
  .node "Function"
    [nameEntry f.name, .items "params" (f.params.map declaredVar), .items "body" body,
     typeEntry f.type, boolEntry "is_method" f.isMethod, boolEntry "intrinsic" f.intrinsic]

def declaredField (f : FieldInit) : Outline :=
  .node "Field"
    ([nameEntry f.field.name, typeEntry f.field.type] ++
      (f.value.map fun e => entryOf "value" e e.outline).getD [])

def declaredObject (ref : ObjectRef) (fields : List FieldInit)
    (parameters : Option (List ForgeParam)) (methods : List Outline) : Outline :=
  .node "ObjectType"
    ([nameEntry ref.name, .items "fields" (fields.map declaredField)] ++
      (parameters.map fun ps => Entry.items "parameters" (ps.map declaredParam)).toList ++
      [.items "methods" methods])

/-! ### Statements -/

def ObjectKind.title : ObjectKind → String
  | matter => "StructDeclaration"
  | guild => "ClassDeclaration"

/-- An `if` with an alternate, or a short one without. -/
def branchOutline (test : Expr) (body : List Outline) (alternate : Option Entry) : Outline :=
  let parts := entryOf "test" test test.outline ++ [.items "consequent" body]
  match alternate with
  | none => .node "ShortIfStatement" parts
  | some entry => .node "IfStatement" (parts ++ [entry])

/-- The full outline of a symbol that is only named. -/
def fullOutline? : Stmt → Option Outline
  | .expr (.var v) => some (declaredVar v)
  | .expr (.param p) => some (declaredParam p)
  | .bare _ declared => some declared
  | _ => none

mutual

def Stmt.outline : Stmt → Outline
  | .declare mutable v init =>
    .node (if mutable then "VariableDeclaration" else "ConstantDeclaration")
      (.child "variable" (useOfVar v) :: entryOf "initializer" init init.outline)
  | .function f body =>
    .node "FunctionDeclaration" [.child "function" (declaredFunc f (bodyOutlines body))]
  | .object kind ref fields parameters methods =>
    .node kind.title
      [.child "type" (declaredObject ref fields parameters (methodOutlines methods))]
  | .print e => .node "PrintStatement" (entryOf "expression" e e.outline)
  | .increment target => .node "IncrementStatement" (entryOf "variable" target target.outline)
  | .decrement target => .node "DecrementStatement" (entryOf "variable" target target.outline)
  | .assign target source =>
    .node "AssignmentStatement"
      (entryOf "target" target target.outline ++ entryOf "source" source source.outline)
  | .return_ e => .node "ReturnStatement" (entryOf "expression" e e.outline)
  | .shortReturn => .node "ShortReturnStatement" []
  | .branch test body alternate => branchOutline test (stmtOutlines body) (alternateEntry alternate)
  | .while_ test body =>
    .node "WhileStatement"
      (entryOf "test" test test.outline ++ [.items "body" (stmtOutlines body)])
  | .repeat_ count body =>
    .node "RepeatStatement"
      (entryOf "count" count count.outline ++ [.items "body" (stmtOutlines body)])
  | .range iterator low kind high body =>
    .node "ForRangeStatement"
      (.child "iterator" (useOfVar iterator) :: entryOf "low" low low.outline ++
        opEntry kind.text :: entryOf "high" high high.outline ++
        [.items "body" (stmtOutlines body)])
  | .forEach iterator collection body =>
    .node "ForEachStatement"
      (.child "iterator" (useOfVar iterator) ::
        entryOf "collection" collection collection.outline ++ [.items "body" (stmtOutlines body)])
  | .foreignRange iterator low symbol high body =>
    .node "ForRangeStatement"
      (.child "iterator" (useOfVar iterator) :: entryOf "low" low low.outline ++
        foreignOp symbol ++ entryOf "high" high high.outline ++
        [.items "body" (stmtOutlines body)])
  | .break_ => .node "BreakStatement" []
  | .call e => .node "CallStatement" (entryOf "call" e e.outline)
  | .expr e => e.outline
  | .bare used _ => used
  | .misplaced shown _ => shown

def stmtOutlines : List Stmt → List Outline
  | [] => []
  | s :: rest => s.outline :: stmtOutlines rest

/-- The statements of a function, where a symbol that is only named is shown in full. -/
def bodyOutlines : List Stmt → List Outline
  | [] => []
  | s :: rest => (fullOutline? s).getD s.outline :: bodyOutlines rest

def methodOutlines : List Method → List Outline
  | [] => []
  | .mk f body :: rest => declaredFunc f (bodyOutlines body) :: methodOutlines rest

def alternateEntry : Alternate → Option Entry
  | .none => none
  | .block body => some (.items "alternate" (stmtOutlines body))
  | .chain test body alternate =>
    some (.child "alternate" (branchOutline test (stmtOutlines body) (alternateEntry alternate)))

end

def Program.outline (p : Program) : Outline :=
  .node "Program" [.items "statements" (stmtOutlines p.statements)]

/-- The outline of a program as printed lines. -/
def Program.view (p : Program) : List String := p.outline.lines 0

end Dragon.Typed
