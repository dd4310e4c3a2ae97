import Dragon.Proofs.Optimize.Reduct
import Dragon.Proofs.Typing.Parts

/-!
# Optimization by parts

One expression at a time is optimized: first the parts, then the expression that they make. What is
kept by both steps is kept everywhere in an expression.
-/
namespace Dragon.Typed

namespace Expr

/-- An expression with its parts optimized. Callees and the objects of members are left alone. -/
def optimizedParts : Expr → Expr
  | .unary op e type => .unary op e.optimize.value type
  | .binary op l r type => .binary op l.optimize.value r.optimize.value type
  | .ternary test c a type =>
    .ternary test.optimize.value c.optimize.value a.optimize.value type
  | .coalesce o f type => .coalesce o.optimize.value f.optimize.value type
  | .list elements type => .list (optimizeAll elements).value type
  | .subscript c i type => .subscript c.optimize.value i.optimize.value type
  | .call callee args type => .call callee (optimizeArgs args).value type
  | .construct ref args type => .construct ref (optimizeArgs args).value type
  | .template parts type => .template (optimizeParts parts).value type
  | .foreignUnary symbol e type => .foreignUnary symbol e.optimize.value type
  | .foreignBinary symbol l r type =>
    .foreignBinary symbol l.optimize.value r.optimize.value type
  | .misplaced _ optimized => .misplaced optimized optimized
  | e => e

/-- One step of simplification. -/
def simplify : Expr → Expr
  | .unary op e type => applyUnary op e type
  | .binary op l r type => (applyBinary op l r type).value
  | .ternary test c a type => choose test c a type
  | .coalesce o f type => orElse o f type
  | e => e

theorem optimize_eq (e : Expr) : e.optimize.value = e.optimizedParts.simplify := by
  cases e <;> rfl

theorem type_optimizedParts (e : Expr) : e.optimizedParts.type = e.type := by
  cases e <;> rfl

theorem value_optimizeAll (es : List Expr) :
    (optimizeAll es).value = es.map (·.optimize.value) := by
  induction es with
  | nil => rfl
  | cons e rest ih => exact congrArg (e.optimize.value :: ·) ih

theorem value_optimizeArgs (args : List Arg) :
    (optimizeArgs args).value.map Arg.value = (args.map Arg.value).map (·.optimize.value) := by
  induction args with
  | nil => rfl
  | cons a rest ih =>
    obtain ⟨name, value⟩ := a
    exact congrArg (value.optimize.value :: ·) ih

theorem value_optimizeParts (parts : List Part) :
    (optimizeParts parts).value.filterMap Part.value? =
      (parts.filterMap Part.value?).map (·.optimize.value) := by
  induction parts with
  | nil => rfl
  | cons p rest ih =>
    cases p with
    | text s => exact ih
    | hole e => exact congrArg (e.optimize.value :: ·) ih

/-- Parts are optimized, or left as they are. -/
theorem parts_optimizedParts (e : Expr) :
    ∀ p ∈ e.optimizedParts.parts, ∃ p₀ ∈ e.parts, p = p₀.optimize.value ∨ p = p₀ := by
  have hsome (es : List Expr) : ∀ p ∈ es.map (·.optimize.value),
      ∃ p₀ ∈ es, p = p₀.optimize.value ∨ p = p₀ := by
    intro p hp
    obtain ⟨p₀, hp₀, rfl⟩ := List.mem_map.1 hp
    exact ⟨p₀, hp₀, .inl rfl⟩
  cases e with
  | unary _ e | foreignUnary _ e => exact hsome [e]
  | binary _ l r | coalesce l r | subscript l r | foreignBinary _ l r =>
    exact hsome [l, r]
  | ternary test c a => exact hsome [test, c, a]
  | list elements =>
    intro p hp
    exact hsome _ p (value_optimizeAll elements ▸ hp)
  | call callee args =>
    refine List.forall_mem_cons.2 ⟨⟨callee, List.mem_cons_self, .inr rfl⟩, fun p hp => ?_⟩
    obtain ⟨p₀, hp₀, h⟩ := hsome _ p (value_optimizeArgs args ▸ hp)
    exact ⟨p₀, List.mem_cons_of_mem _ hp₀, h⟩
  | construct _ args =>
    intro p hp
    exact hsome _ p (value_optimizeArgs args ▸ hp)
  | template parts =>
    intro p hp
    exact hsome _ p (value_optimizeParts parts ▸ hp)
  | _ =>
    exact fun p hp => ⟨p, hp, .inr rfl⟩

/-! ### What is kept -/

variable {P : Expr → Prop}

/-- What holds everywhere in an expression still does when it is optimized, if it withstands
optimized parts, with types that are as good as the ones before, and one step of simplification. -/
theorem each_optimize {S : Ty → Ty → Prop}
    (hparts : ∀ e : Expr, (∀ p ∈ e.parts, S p.optimize.value.type p.type) → P e →
      P e.optimizedParts)
    (hstep : ∀ e : Expr, e.Each P → e.simplify.Each P ∧ S e.simplify.type e.type) (e : Expr) :
    e.Each P → e.optimize.value.Each P ∧ S e.optimize.value.type e.type := by
  induction e using induction_parts with
  | h e ih =>
    intro he
    -- The parts come first: the step is told of an expression that is optimized below already.
    rw [e.optimize_eq, ← e.type_optimizedParts]
    refine hstep _ (each_iff.2 ⟨hparts e (fun p hp => ?_) he.here, fun p hp => ?_⟩)
    · exact (ih p hp (he.part p hp)).2
    · obtain ⟨p₀, hp₀, rfl | rfl⟩ := e.parts_optimizedParts p hp
      · exact (ih p₀ hp₀ (he.part p₀ hp₀)).1
      · exact he.part _ hp₀

theorem exists_reduct_simplify (e : Expr) : ∃ settled, Reduct e.parts e settled e.simplify := by
  cases e with
  | unary op e type => exact ⟨_, reduct_applyUnary op e type⟩
  | binary op l r type => exact ⟨_, reduct_applyBinary op l r type⟩
  | ternary test c a type => exact ⟨_, reduct_choose test c a type⟩
  | coalesce o f type => exact ⟨_, reduct_orElse o f type⟩
  | _ => exact ⟨True, .same trivial⟩

/-- A property that does not look at parts, of which only literals are new. -/
theorem each_optimize_of_leaf (hparts : ∀ e, P e → P e.optimizedParts)
    (hunary : ∀ op e type, P (unary op e type))
    (hliteral : ∀ operands v type, (∀ o ∈ operands, P o) → Computed operands v →
      P (literal v type)) {e : Expr} (he : e.Each P) : e.optimize.value.Each P := by
  refine (each_optimize (S := fun _ _ => True) (fun e _ => hparts e) (fun e he => ?_) e he).1
  obtain ⟨settled, h⟩ := e.exists_reduct_simplify
  refine ⟨?_, trivial⟩
  generalize e.simplify = e' at h
  cases h with
  | literal hv type =>
    exact (each_leaf rfl).2 (hliteral _ _ _ (fun o ho => (he.part o ho).here) hv)
  | operand h => exact he.part _ h
  | inner h => exact (each_unary.1 (he.part _ h)).2
  | negated type h => exact each_unary.2 ⟨hunary _ _ _, he.part _ h⟩
  | same => exact he

end Expr

end Dragon.Typed
