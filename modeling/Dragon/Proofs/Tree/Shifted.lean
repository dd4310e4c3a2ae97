import Dragon.Proofs.Token.Joined

/-!
# Trees further down in a text

All places of a tree are moved by the same number of lines.
-/
namespace Dragon

namespace Tree

variable (n : Nat)

mutual

def TypeExpr.down : TypeExpr → TypeExpr
  | .named name span => .named name (span.down n)
  | .list element span => .list element.down (span.down n)
  | .optional base span => .optional base.down (span.down n)
  | .function params result span => .function (downTypes params) result.down (span.down n)

def downTypes : List TypeExpr → List TypeExpr
  | [] => []
  | t :: rest => t.down :: downTypes rest

end

mutual

def Expr.down : Expr → Expr
  | .integer text span => .integer text (span.down n)
  | .float text span => .float text (span.down n)
  | .boolean value span => .boolean value (span.down n)
  | .string value span => .string value (span.down n)
  | .interpolation parts span => .interpolation (downExprs parts) (span.down n)
  | .identifier name span => .identifier name (span.down n)
  | .mine span => .mine (span.down n)
  | .naught type span => .naught (type.down n) (span.down n)
  | .list elements span => .list (downExprs elements) (span.down n)
  | .unary op operand span => .unary op operand.down (span.down n)
  | .binary left op right span => .binary left.down op right.down (span.down n)
  | .ternary test consequent alternate span =>
    .ternary test.down consequent.down alternate.down (span.down n)
  | .coalesce optional fallback span => .coalesce optional.down fallback.down (span.down n)
  | .call callee args span => .call callee.down (downArguments args) (span.down n)
  | .index collection index span => .index collection.down index.down (span.down n)
  | .member object access name span => .member object.down access name (span.down n)

def downExprs : List Expr → List Expr
  | [] => []
  | e :: rest => e.down :: downExprs rest

def Argument.down : Argument → Argument
  | .mk name value span => .mk name value.down (span.down n)

def downArguments : List Argument → List Argument
  | [] => []
  | a :: rest => a.down :: downArguments rest

end

def Param.down (p : Param) : Param := ⟨p.name, p.type.down n, p.span.down n⟩

def FieldDef.down (f : FieldDef) : FieldDef := ⟨f.name, f.type.down n, f.span.down n⟩

mutual

def Stmt.down : Stmt → Stmt
  | .declare mutable name type value span =>
    .declare mutable name (type.down n) (value.down n) (span.down n)
  | .function definition => .function definition.down
  | .matter name fields span => .matter name (fields.map (FieldDef.down n)) (span.down n)
  | .guild name fields forge methods span =>
    .guild name (fields.map (FieldDef.down n)) (downForge forge) (downMethods methods) (span.down n)
  | .print value span => .print (value.down n) (span.down n)
  | .assign target value span => .assign (target.down n) (value.down n) (span.down n)
  | .increment target span => .increment (target.down n) (span.down n)
  | .decrement target span => .decrement (target.down n) (span.down n)
  | .return_ value span => .return_ (value.map (Expr.down n)) (span.down n)
  | .branch test body alternate span =>
    .branch (test.down n) (downBlock body) alternate.down (span.down n)
  | .while_ test body span => .while_ (test.down n) (downBlock body) (span.down n)
  | .repeat_ count body span => .repeat_ (count.down n) (downBlock body) (span.down n)
  | .range iterator low kind high body span =>
    .range iterator (low.down n) kind (high.down n) (downBlock body) (span.down n)
  | .forEach iterator collection body span =>
    .forEach iterator (collection.down n) (downBlock body) (span.down n)
  | .break_ span => .break_ (span.down n)
  | .call callee args callSpan span =>
    .call (callee.down n) (downArguments n args) (callSpan.down n) (span.down n)

def downBlock : List Stmt → List Stmt
  | [] => []
  | s :: rest => s.down :: downBlock rest

def FunctionDef.down : FunctionDef → FunctionDef
  | .mk name params result body span =>
    .mk name (params.map (Param.down n)) (result.map (TypeExpr.down n)) (downBlock body)
      (span.down n)

def downMethods : List FunctionDef → List FunctionDef
  | [] => []
  | m :: rest => m.down :: downMethods rest

def downForge : Option Forge → Option Forge
  | none => none
  | some forge => some forge.down

def Forge.down : Forge → Forge
  | .mk params body span => .mk (params.map (Param.down n)) (downBlock body) (span.down n)

def Alternate.down : Alternate → Alternate
  | .none => .none
  | .block body => .block (downBlock body)
  | .chain test body alternate span =>
    .chain (test.down n) (downBlock body) alternate.down (span.down n)

end

/-! ### Lists and spans -/

theorem downTypes_eq_map (ts : List TypeExpr) : downTypes n ts = ts.map (TypeExpr.down n) := by
  induction ts with
  | nil => rfl
  | cons t rest ih => rw [downTypes, ih, List.map_cons]

theorem downExprs_eq_map (es : List Expr) : downExprs n es = es.map (Expr.down n) := by
  induction es with
  | nil => rfl
  | cons e rest ih => rw [downExprs, ih, List.map_cons]

theorem downArguments_eq_map (args : List Argument) :
    downArguments n args = args.map (Argument.down n) := by
  induction args with
  | nil => rfl
  | cons a rest ih => rw [downArguments, ih, List.map_cons]

theorem downBlock_eq_map (ss : List Stmt) : downBlock n ss = ss.map (Stmt.down n) := by
  induction ss with
  | nil => rfl
  | cons s rest ih => rw [downBlock, ih, List.map_cons]

theorem downMethods_eq_map (ms : List FunctionDef) :
    downMethods n ms = ms.map (FunctionDef.down n) := by
  induction ms with
  | nil => rfl
  | cons m rest ih => rw [downMethods, ih, List.map_cons]

@[simp] theorem TypeExpr.span_down (t : TypeExpr) : (t.down n).span = t.span.down n := by
  cases t <;> simp only [TypeExpr.down, TypeExpr.span]

@[simp] theorem Expr.span_down (e : Expr) : (e.down n).span = e.span.down n := by
  cases e <;> simp only [Expr.down, Expr.span]

end Tree

end Dragon
