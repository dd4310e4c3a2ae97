import Dragon.Outline
import Dragon.Text.Quoted
import Dragon.Tree.Basic

/-!
# The outline of a syntax tree

Every node with its parts in a fixed order, absent parts left out.
-/
namespace Dragon.Tree

/-- A labelled text in quotes. -/
def quotedEntry (label value : String) : Entry := .text label (Text.quoted value)

def boolText (b : Bool) : String := if b then "True" else "False"

mutual

def TypeExpr.outline : TypeExpr → Outline
  | .named name _ => .node "NamedType" [quotedEntry "name" name]
  | .list element _ => .node "ListTypeExpr" [.child "element" element.outline]
  | .optional base _ => .node "OptionalTypeExpr" [.child "base" base.outline]
  | .function params result _ =>
    .node "FunctionTypeExpr" [.items "params" (typeOutlines params), .child "result" result.outline]

def typeOutlines : List TypeExpr → List Outline
  | [] => []
  | type :: rest => type.outline :: typeOutlines rest

end

mutual

def Expr.outline : Expr → Outline
  | .integer text _ => .node "IntegerLit" [quotedEntry "value" text]
  | .float text _ => .node "FloatLit" [quotedEntry "value" text]
  | .boolean value _ => .node "BooleanLit" [.text "value" (boolText value)]
  | .string value _ => .node "StringLit" [quotedEntry "value" value]
  | .interpolation parts _ => .node "StringInterp" [.items "parts" (exprOutlines parts)]
  | .identifier name _ => .node "IdentifierExpr" [quotedEntry "name" name]
  | .mine _ => .node "SelfExpr" []
  | .naught type _ => .node "NaughtExpr" [.child "type_expr" type.outline]
  | .list elements _ => .node "ListLiteral" [.items "elements" (exprOutlines elements)]
  | .unary op operand _ =>
    .node "UnaryExpr" [quotedEntry "op" op.text, .child "operand" operand.outline]
  | .binary left op right _ =>
    .node "BinaryExpr"
      [.child "left" left.outline, quotedEntry "op" op.text, .child "right" right.outline]
  | .ternary test consequent alternate _ =>
    .node "TernaryExpr"
      [.child "condition" test.outline, .child "consequent" consequent.outline,
       .child "alternate" alternate.outline]
  | .coalesce optional fallback _ =>
    .node "CoalesceExpr" [.child "optional" optional.outline, .child "fallback" fallback.outline]
  | .call callee args _ =>
    .node "CallExpr" [.child "callee" callee.outline, .items "args" (argumentOutlines args)]
  | .index collection index _ =>
    .node "IndexExpr" [.child "collection" collection.outline, .child "index" index.outline]
  | .member object access name _ =>
    .node "MemberExpr"
      [.child "obj" object.outline, quotedEntry "op" access.text, quotedEntry "name" name]

def exprOutlines : List Expr → List Outline
  | [] => []
  | e :: rest => e.outline :: exprOutlines rest

def argumentOutlines : List Argument → List Outline
  | [] => []
  | .mk name value _ :: rest =>
    .node "Argument" ((name.map (quotedEntry "name")).toList ++ [.child "value" value.outline]) ::
      argumentOutlines rest

end

def Param.outline (p : Param) : Outline :=
  .node "Param" [quotedEntry "name" p.name, .child "type_expr" p.type.outline]

def FieldDef.outline (f : FieldDef) : Outline :=
  .node "FieldDef" [quotedEntry "name" f.name, .child "type_expr" f.type.outline]

def branchOutline (test : Expr) (body : List Outline) (alternate : List Entry) : Outline :=
  .node "IfStmt" ([.child "condition" test.outline, .items "consequent" body] ++ alternate)

mutual

def Stmt.outline : Stmt → Outline
  | .declare mutable name type value _ =>
    .node "VarDecl"
      [.text "mutable" (boolText mutable), quotedEntry "name" name,
       .child "type_expr" type.outline, .child "value" value.outline]
  | .function definition => definition.outline
  | .matter name fields _ =>
    .node "MatterDef" [quotedEntry "name" name, .items "fields" (fields.map FieldDef.outline)]
  | .guild name fields forge methods _ =>
    .node "GuildDef"
      ([quotedEntry "name" name, .items "fields" (fields.map FieldDef.outline)] ++
        forgeEntry forge ++ [.items "methods" (functionOutlines methods)])
  | .print value _ => .node "PrintStmt" [.child "value" value.outline]
  | .assign target value _ =>
    .node "Assignment" [.child "target" target.outline, .child "value" value.outline]
  | .increment target _ =>
    .node "IncDecStmt" [.child "target" target.outline, quotedEntry "op" "++"]
  | .decrement target _ =>
    .node "IncDecStmt" [.child "target" target.outline, quotedEntry "op" "--"]
  | .return_ value _ =>
    .node "ReturnStmt" (value.map fun e => Entry.child "value" e.outline).toList
  | .branch test body alternate _ =>
    branchOutline test (stmtOutlines body) (alternateEntry alternate)
  | .while_ test body _ =>
    .node "WhileStmt" [.child "condition" test.outline, .items "body" (stmtOutlines body)]
  | .repeat_ count body _ =>
    .node "RepeatStmt" [.child "count" count.outline, .items "body" (stmtOutlines body)]
  | .range iterator low kind high body _ =>
    .node "RangeLoop"
      [quotedEntry "iterator" iterator, .child "low" low.outline, quotedEntry "op" kind.text,
       .child "high" high.outline, .items "body" (stmtOutlines body)]
  | .forEach iterator collection body _ =>
    .node "ForEachLoop"
      [quotedEntry "iterator" iterator, .child "collection" collection.outline,
       .items "body" (stmtOutlines body)]
  | .break_ _ => .node "BreakStmt" []
  | .call callee args span _ =>
    .node "CallStmt" [.child "call" (Expr.outline (.call callee args span))]

def stmtOutlines : List Stmt → List Outline
  | [] => []
  | s :: rest => s.outline :: stmtOutlines rest

def FunctionDef.outline : FunctionDef → Outline
  | .mk name params result body _ =>
    .node "FunctionDef"
      ([quotedEntry "name" name, .items "params" (params.map Param.outline)] ++
        (result.map fun t => Entry.child "return_type" t.outline).toList ++
        [.items "body" (stmtOutlines body)])

def functionOutlines : List FunctionDef → List Outline
  | [] => []
  | f :: rest => f.outline :: functionOutlines rest

def forgeEntry : Option Forge → List Entry
  | none => []
  | some (.mk params body _) =>
    [.child "initializer" (.node "Initializer"
      [.items "params" (params.map Param.outline), .items "body" (stmtOutlines body)])]

def alternateEntry : Alternate → List Entry
  | .none => []
  | .block body => [.items "alternate" (stmtOutlines body)]
  | .chain test body alternate _ =>
    [.child "alternate" (branchOutline test (stmtOutlines body) (alternateEntry alternate))]

end

def Program.outline (p : Program) : Outline :=
  .node "Program" [.items "statements" (stmtOutlines p.statements)]

/-- The outline of a program as printed lines. -/
def Program.view (p : Program) : List String := p.outline.lines 0

end Dragon.Tree
