import Dragon.Proofs.Typing.Basic

/-!
# Expressions in expressions

A property of everything in an expression is one of the expression itself and, in turn, of its
parts; so what is kept in a program is told one expression at a time.
-/
namespace Dragon.Typed

mutual

/-- The expressions in an expression, itself included. -/
def Expr.inside : Expr → List Expr
  | .unary op e type => .unary op e type :: e.inside
  | .binary op left right type => .binary op left right type :: (left.inside ++ right.inside)
  | .ternary test consequent alternate type =>
    .ternary test consequent alternate type ::
      (test.inside ++ consequent.inside ++ alternate.inside)
  | .coalesce optional fallback type =>
    .coalesce optional fallback type :: (optional.inside ++ fallback.inside)
  | .list elements type => .list elements type :: insideElements elements
  | .subscript collection index type =>
    .subscript collection index type :: (collection.inside ++ index.inside)
  | .member object access member type => .member object access member type :: object.inside
  | .call callee args type => .call callee args type :: (callee.inside ++ insideArgs args)
  | .construct object args type => .construct object args type :: insideArgs args
  | .template parts type => .template parts type :: insideParts parts
  | .foreignUnary symbol e type => .foreignUnary symbol e type :: e.inside
  | .foreignBinary symbol left right type =>
    .foreignBinary symbol left right type :: (left.inside ++ right.inside)
  | .foreignMember object symbol name shown type =>
    .foreignMember object symbol name shown type :: object.inside
  | e => [e]

def insideElements : List Expr → List Expr
  | [] => []
  | e :: rest => e.inside ++ insideElements rest

def insideArgs : List Arg → List Expr
  | [] => []
  | .mk _ value :: rest => value.inside ++ insideArgs rest

def insideParts : List Part → List Expr
  | [] => []
  | .text _ :: rest => insideParts rest
  | .hole e :: rest => e.inside ++ insideParts rest

end

def Part.value? : Part → Option Expr
  | text _ => none
  | hole e => some e

/-- The expressions that an expression is made of. -/
def Expr.parts : Expr → List Expr
  | .unary _ e _ | .member e _ _ _ | .foreignUnary _ e _ | .foreignMember e _ _ _ _ => [e]
  | .binary _ e e' _ | .coalesce e e' _ | .subscript e e' _ | .foreignBinary _ e e' _ => [e, e']
  | .ternary test consequent alternate _ => [test, consequent, alternate]
  | .list elements _ => elements
  | .call callee args _ => callee :: args.map Arg.value
  | .construct _ args _ => args.map Arg.value
  | .template parts _ => parts.filterMap Part.value?
  | .var _ | .param _ | .func _ | .self _ | .literal .. | .emptyOptional _ | .emptyList _
  | .object _ | .field _ | .misplaced .. => []

theorem insideElements_eq (es : List Expr) : insideElements es = es.flatMap Expr.inside := by
  induction es with
  | nil => rfl
  | cons e rest ih => rw [insideElements, ih, List.flatMap_cons]

theorem insideArgs_eq (args : List Arg) :
    insideArgs args = (args.map Arg.value).flatMap Expr.inside := by
  induction args with
  | nil => rfl
  | cons a rest ih =>
    obtain ⟨name, value⟩ := a
    rw [insideArgs, ih, List.map_cons, List.flatMap_cons]
    rfl

theorem insideParts_eq (parts : List Part) :
    insideParts parts = (parts.filterMap Part.value?).flatMap Expr.inside := by
  induction parts with
  | nil => rfl
  | cons p rest ih =>
    cases p with
    | text s => exact ih
    | hole e =>
      rw [insideParts, ih]
      rfl

theorem Expr.inside_eq (e : Expr) : e.inside = e :: e.parts.flatMap Expr.inside := by
  cases e <;> simp [Expr.inside, Expr.parts, insideElements_eq, insideArgs_eq, insideParts_eq]

/-! ### Properties of everything in an expression -/

/-- Everything in an expression has a property. -/
def Expr.Each (P : Expr → Prop) (e : Expr) : Prop := ∀ e' ∈ e.inside, P e'

namespace Expr

variable {P Q : Expr → Prop} {e l r test : Expr} {type : Ty}

/-- A property holds everywhere if it holds here and in all parts. -/
theorem each_iff : e.Each P ↔ P e ∧ ∀ p ∈ e.parts, p.Each P := by
  unfold Each
  rw [e.inside_eq, List.forall_mem_cons, List.forall_mem_flatMap]

theorem Each.here (h : e.Each P) : P e := (each_iff.1 h).1

theorem Each.part (h : e.Each P) : ∀ p ∈ e.parts, p.Each P := (each_iff.1 h).2

theorem Each.mono (h : e.Each P) (hPQ : ∀ e, P e → Q e) : e.Each Q := fun e' he' =>
  hPQ e' (h e' he')

theorem each_leaf (hparts : e.parts = []) : e.Each P ↔ P e := by
  simp [each_iff (e := e), hparts]

theorem each_and : (e.Each fun e => P e ∧ Q e) ↔ e.Each P ∧ e.Each Q := forall₂_and

theorem each_one (hparts : e.parts = [l]) : e.Each P ↔ P e ∧ l.Each P := by
  simp [each_iff (e := e), hparts]

theorem each_pair (hparts : e.parts = [l, r]) : e.Each P ↔ P e ∧ l.Each P ∧ r.Each P := by
  simp [each_iff (e := e), hparts]

theorem each_unary {op : UnaryOp} : (unary op e type).Each P ↔ P (unary op e type) ∧ e.Each P :=
  each_one rfl

theorem each_binary {op : BinaryOp} :
    (binary op l r type).Each P ↔ P (binary op l r type) ∧ l.Each P ∧ r.Each P :=
  each_pair rfl

theorem each_coalesce :
    (coalesce l r type).Each P ↔ P (coalesce l r type) ∧ l.Each P ∧ r.Each P :=
  each_pair rfl

theorem each_ternary :
    (ternary test l r type).Each P ↔
      P (ternary test l r type) ∧ test.Each P ∧ l.Each P ∧ r.Each P := by
  simp [each_iff (e := ternary test l r type), parts]

/-- Parts are smaller than what they are parts of. -/
theorem length_inside_lt (h : l ∈ e.parts) : l.inside.length < e.inside.length := by
  have hsub : l.inside.Sublist (e.parts.flatMap inside) := List.sublist_flatten_of_mem
    (List.mem_map_of_mem h)
  rw [e.inside_eq]
  exact Nat.lt_succ_of_le hsub.length_le

/-- What can be told of an expression from its parts can be told of every expression. -/
theorem induction_parts (h : ∀ e, (∀ p ∈ e.parts, P p) → P e) (e : Expr) : P e :=
  h e fun p _ => induction_parts h p
termination_by e.inside.length
decreasing_by exact length_inside_lt ‹_›

/-- What parts inherit holds of everything in an expression. -/
theorem forall_inside (hP : ∀ e, P e → ∀ p ∈ e.parts, P p) (e : Expr) : P e → e.Each P := by
  induction e using induction_parts with
  | h e ih => exact fun he => each_iff.2 ⟨he, fun p hp => ih p hp (hP e he p hp)⟩

end Expr

/-! ### Well typed expressions -/

section WellTyped

variable {T : Objects} {Γ : Context}

theorem elementsWellTyped_iff {es : List Expr} :
    elementsWellTyped T Γ es ↔ ∀ e ∈ es, e.WellTyped T Γ := by
  induction es with
  | nil => simp [elementsWellTyped]
  | cons e es ih => simp [elementsWellTyped, ih]

theorem argsWellTyped_iff {args : List Arg} :
    argsWellTyped T Γ args ↔ ∀ e ∈ args.map Arg.value, e.WellTyped T Γ := by
  induction args with
  | nil => simp [argsWellTyped]
  | cons a rest ih =>
    obtain ⟨name, value⟩ := a
    rw [argsWellTyped, ih, List.map_cons, List.forall_mem_cons]
    rfl

theorem wellTyped_of_partsWellTyped {parts : List Part} (h : partsWellTyped T Γ parts) :
    ∀ e ∈ parts.filterMap Part.value?, e.WellTyped T Γ := by
  induction parts with
  | nil => exact nofun
  | cons p rest ih =>
    cases p with
    | text s => exact ih h
    | hole e => exact List.forall_mem_cons.2 ⟨h.1, ih h.2.2⟩

/-- The parts of a well typed expression are well typed. -/
theorem Expr.wellTyped_parts (e : Expr) (he : e.WellTyped T Γ) :
    ∀ e' ∈ e.parts, e'.WellTyped T Γ := by
  cases e with
  | unary _ e | member e => exact List.forall_mem_singleton.2 he.1
  | binary _ l r | coalesce l r | subscript l r =>
    exact List.forall_mem_cons.2 ⟨he.1, List.forall_mem_singleton.2 he.2.1⟩
  | ternary t c a =>
    exact List.forall_mem_cons.2 ⟨he.1, List.forall_mem_cons.2
      ⟨he.2.1, List.forall_mem_singleton.2 he.2.2.1⟩⟩
  | list elements => exact elementsWellTyped_iff.1 he.1
  | call callee args => exact List.forall_mem_cons.2 ⟨he.1, argsWellTyped_iff.1 he.2.1⟩
  | construct _ args => exact argsWellTyped_iff.1 he.1
  | template parts => exact wellTyped_of_partsWellTyped he.1
  | var | param | func | self | literal | emptyOptional | emptyList =>
    exact nofun
  | _ =>
    exact he.elim

theorem Expr.each_of_wellTyped {P : Expr → Prop} (h : ∀ e, e.WellTyped T Γ → P e) (e : Expr)
    (he : e.WellTyped T Γ) : e.Each P :=
  (forall_inside (fun e => e.wellTyped_parts) e he).mono h

end WellTyped

end Dragon.Typed
