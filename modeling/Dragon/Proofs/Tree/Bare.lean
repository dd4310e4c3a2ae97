import Dragon.Proofs.Tree.Grammar

/-!
# Tokens, faults and programs apart from their places

The place of everything is `Span.nowhere`, and so is what lies between two such places.
-/
namespace Dragon

@[simp] theorem Span.through_nowhere : Span.nowhere.through .nowhere = .nowhere := rfl

def Token.bare (t : Token) : Token := { t with span := .nowhere }

@[simp] theorem Token.kind_bare (t : Token) : t.bare.kind = t.kind := rfl

@[simp] theorem Token.value_bare (t : Token) : t.bare.value = t.value := rfl

@[simp] theorem Token.span_bare (t : Token) : t.bare.span = .nowhere := rfl

def TokenStream.bare (stream : TokenStream) : TokenStream :=
  ⟨stream.tokens.map Token.bare, stream.eof.bare⟩

def SyntaxFault.bare (f : SyntaxFault) : SyntaxFault := { f with span := .nowhere }

namespace Tree

@[simp] theorem TypeExpr.span_bare (type : TypeExpr) : type.bare.span = .nowhere := by
  cases type <;> rfl

@[simp] theorem Expr.span_bare (e : Expr) : e.bare.span = .nowhere := by
  cases e <;> simp only [Expr.bare, Expr.span]

def Param.bare (p : Param) : Param := ⟨p.name, p.type.bare, .nowhere⟩

def FieldDef.bare (f : FieldDef) : FieldDef := ⟨f.name, f.type.bare, .nowhere⟩

mutual

def Stmt.bare : Stmt → Stmt
  | .declare mutable name type value _ => .declare mutable name type.bare value.bare .nowhere
  | .function definition => .function definition.bare
  | .matter name fields _ => .matter name (fields.map FieldDef.bare) .nowhere
  | .guild name fields forge methods _ =>
    .guild name (fields.map FieldDef.bare) (bareForge forge) (bareMethods methods) .nowhere
  | .print value _ => .print value.bare .nowhere
  | .assign target value _ => .assign target.bare value.bare .nowhere
  | .increment target _ => .increment target.bare .nowhere
  | .decrement target _ => .decrement target.bare .nowhere
  | .return_ value _ => .return_ (value.map Expr.bare) .nowhere
  | .branch test body alternate _ => .branch test.bare (bareBlock body) alternate.bare .nowhere
  | .while_ test body _ => .while_ test.bare (bareBlock body) .nowhere
  | .repeat_ count body _ => .repeat_ count.bare (bareBlock body) .nowhere
  | .range iterator low kind high body _ =>
    .range iterator low.bare kind high.bare (bareBlock body) .nowhere
  | .forEach iterator collection body _ =>
    .forEach iterator collection.bare (bareBlock body) .nowhere
  | .break_ _ => .break_ .nowhere
  | .call callee args _ _ => .call callee.bare (bareArguments args) .nowhere .nowhere

def bareBlock : List Stmt → List Stmt
  | [] => []
  | s :: rest => s.bare :: bareBlock rest

def FunctionDef.bare : FunctionDef → FunctionDef
  | .mk name params result body _ =>
    .mk name (params.map Param.bare) (result.map TypeExpr.bare) (bareBlock body) .nowhere

def bareMethods : List FunctionDef → List FunctionDef
  | [] => []
  | m :: rest => m.bare :: bareMethods rest

def bareForge : Option Forge → Option Forge
  | none => none
  | some forge => some forge.bare

def Forge.bare : Forge → Forge
  | .mk params body _ => .mk (params.map Param.bare) (bareBlock body) .nowhere

def Alternate.bare : Alternate → Alternate
  | .none => .none
  | .block body => .block (bareBlock body)
  | .chain test body alternate _ => .chain test.bare (bareBlock body) alternate.bare .nowhere

end

section Lists

-- Equations of such functions take long to derive; this does it once, for later proofs too.
attribute [local simp] Stmt.bare bareBlock FunctionDef.bare bareMethods

theorem bareBlock_eq_map (ss : List Stmt) : bareBlock ss = ss.map Stmt.bare := by
  induction ss with
  | nil => rfl
  | cons s rest ih => simp [ih]

theorem bareMethods_eq_map (ms : List FunctionDef) : bareMethods ms = ms.map FunctionDef.bare := by
  induction ms with
  | nil => rfl
  | cons m rest ih => simp [ih]

end Lists

def Program.bare (p : Program) : Program := ⟨p.statements.map Stmt.bare, .nowhere⟩

end Tree

end Dragon
