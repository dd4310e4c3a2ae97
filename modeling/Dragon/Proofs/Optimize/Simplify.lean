import Dragon.Proofs.Double.Negation
import Dragon.Proofs.Optimize.Fold

/-!
# Simplification refines

One step of simplification refines the operation that it simplifies: signs, truth values, choices
and fallbacks. Nothing is assumed of the operands.
-/
namespace Dragon.Meaning

open Typed

variable {w : World} {store : Store} {a d : Datum} {h h₁ : List Call}

/-! ### Unary operations -/

theorem operateUnary_neg_neg (ha : operateUnary .neg d = .ok a) : operateUnary .neg a = .ok d := by
  cases d <;> simp only [operateUnary, reduceCtorEq, Except.ok.injEq] at ha <;> subst ha
  · simp [operateUnary]
  · simp [operateUnary, Double.neg_neg]

theorem literal?_of_negate? {e : Expr} {u v : Value} (hu : e.number? = some u)
    (hv : u.negate? = some v) (he : eval w store e h = .ok (a, h₁))
    (hd : operateUnary .neg a = .ok d) : literal? v e.type = some d := by
  obtain ⟨-, ⟨n, rfl, rfl, rfl⟩ | ⟨x, rfl, rfl, rfl⟩⟩ := number?_cases hu he
  all_goals
    cases hv
    cases hd
    rfl

/-- Two signs cancel, and signs of literals are computed. -/
theorem refines_negate (e : Expr) (t : Ty) :
    Refines (eval w store (.unary .neg e t)) (eval w store (e.negate t)) := by
  intro h p hp
  obtain ⟨a, h₁, ha, hl⟩ := bind_eq_ok.1 hp
  obtain ⟨d, hd, rfl⟩ := lift_eq_ok.1 hl
  unfold Expr.negate
  split
  next v hv =>
    obtain ⟨u, hu, hv⟩ := Option.bind_eq_some_iff.1 hv
    obtain ⟨rfl, -⟩ := eval_of_number? hu ha
    exact eval_literal.2 ⟨d, literal?_of_negate? hu hv ha hd, rfl⟩
  next =>
    split
    next inner _ =>
      obtain ⟨c, h₂, hc, ha⟩ := bind_eq_ok.1 ha
      obtain ⟨a', ha', hpair⟩ := lift_eq_ok.1 ha
      cases hpair
      rw [operateUnary_neg_neg ha'] at hd
      cases hd
      exact hc
    next => exact hp

theorem refines_invert (e : Expr) (t : Ty) :
    Refines (eval w store (.unary .not e t)) (eval w store (e.invert t)) := by
  intro h p hp
  obtain ⟨a, h₁, ha, hl⟩ := bind_eq_ok.1 hp
  obtain ⟨d, hd, rfl⟩ := lift_eq_ok.1 hl
  unfold Expr.invert
  split
  next v hv =>
    obtain ⟨rfl, c, rfl, rfl⟩ := eval_of_boolean? hv ha
    cases hd
    cases c <;> exact eval_truth _
  next => exact hp

theorem refines_applyUnary (op : UnaryOp) (e : Expr) (t : Ty) :
    Refines (eval w store (.unary op e t)) (eval w store (.applyUnary op e t)) := by
  cases op with
  | neg => exact refines_negate e t
  | not => exact refines_invert e t
  | some => exact Refines.refl _

/-! ### Truth values -/

theorem eq_truth_of_truth? {e : Expr} {c : Bool} (he : e.truth? = some c) : e = .truth c := by
  unfold Expr.truth? at he
  split at he <;> simp_all [Expr.truth]

theorem test_truth (c : Bool) : test (eval w store (.truth c)) h = .ok (c, h) :=
  bind_eq_ok.2 ⟨_, _, eval_truth c, rfl⟩

theorem test_eq_ok {x : Eval Datum} {c : Bool} :
    test x h = .ok (c, h₁) ↔ x h = .ok (.bool c, h₁) := by
  unfold test
  rw [bind_eq_ok]
  constructor
  · rintro ⟨a, h', hx, hc⟩
    obtain ⟨c', hc', hpair⟩ := lift_eq_ok.1 hc
    cases hpair
    cases a <;> simp only [truthOf, reduceCtorEq, Except.ok.injEq] at hc'
    subst hc'
    exact hx
  · intro hx
    exact ⟨.bool c, h₁, hx, rfl⟩

/-- The first operand decides, or the second one does. -/
theorem shortCircuit_eq_ok {c : Bool} {x y : Eval Datum} :
    shortCircuit c x y h = .ok (d, h₁) ↔
      (x h = .ok (.bool c, h₁) ∧ d = .bool c) ∨
      ∃ h' b, x h = .ok (.bool !c, h') ∧ y h' = .ok (.bool b, h₁) ∧ d = .bool b := by
  unfold shortCircuit
  rw [bind_eq_ok]
  constructor
  · rintro ⟨b, h', hx, hy⟩
    rw [test_eq_ok] at hx
    split_ifs at hy with hb
    · cases hy
      exact .inl ⟨hb ▸ hx, rfl⟩
    · obtain rfl : b = !c := by cases b <;> cases c <;> simp_all
      obtain ⟨e, h₂, hy, hp⟩ := bind_eq_ok.1 hy
      cases hp
      exact .inr ⟨h', e, hx, test_eq_ok.1 hy, rfl⟩
  · rintro (⟨hx, rfl⟩ | ⟨h', b, hx, hy, rfl⟩)
    · exact ⟨c, h₁, test_eq_ok.2 hx, by simp [pure_eq_ok]⟩
    · refine ⟨!c, h', test_eq_ok.2 hx, ?_⟩
      rw [if_neg (by simp)]
      exact bind_eq_ok.2 ⟨b, h₁, test_eq_ok.2 hy, rfl⟩

/-- An operand that leaves it to the other one is dropped, and a left one that decides stays. -/
theorem refines_shortCircuit (c : Bool) {l r e : Expr}
    (he : Refines (shortCircuit c (eval w store l) (eval w store r)) (eval w store e)) :
    Refines (shortCircuit c (eval w store l) (eval w store r)) (eval w store
      (if l.truth? == some !c then r
      else if r.truth? == some !c then l
      else if l.truth? == some c then l
      else e)) := by
  rintro h ⟨d, h₁⟩ hp
  have hcases := shortCircuit_eq_ok.1 hp
  split_ifs with hl hr hl'
  · obtain rfl := eq_truth_of_truth? (by simpa using hl)
    simp only [eval_truth] at hcases
    obtain ⟨hc, -⟩ | ⟨h', b, ⟨⟩, hr, rfl⟩ := hcases
    · cases c <;> simp at hc
    · exact hr
  · obtain rfl := eq_truth_of_truth? (by simpa using hr)
    simp only [eval_truth] at hcases
    obtain ⟨hl, rfl⟩ | ⟨h', b, hl, ⟨⟩, rfl⟩ := hcases
    · exact hl
    · exact hl
  · obtain rfl := eq_truth_of_truth? (by simpa using hl')
    simp only [eval_truth] at hcases
    obtain ⟨⟨⟩, rfl⟩ | ⟨h', b, hc, -⟩ := hcases
    · exact eval_truth c
    · cases c <;> simp at hc
  · exact he h _ hp

theorem refines_conjoin (l r : Expr) (t : Ty) :
    Refines (eval w store (.binary .and l r t)) (eval w store (l.conjoin r t)) :=
  refines_shortCircuit false (Refines.refl _)

theorem refines_disjoin (l r : Expr) (t : Ty) :
    Refines (eval w store (.binary .or l r t)) (eval w store (l.disjoin r t)) :=
  refines_shortCircuit true (Refines.refl _)

/-! ### Choices -/

theorem refines_choose (c l r : Expr) (t : Ty) :
    Refines (eval w store (.ternary c l r t)) (eval w store (c.choose l r t)) := by
  intro h p hp
  obtain ⟨b, h₁, hb, he⟩ := bind_eq_ok.1 hp
  unfold Expr.choose
  split
  next hc =>
    obtain rfl := eq_truth_of_truth? hc
    cases (test_truth true).symm.trans hb
    exact he
  next hc =>
    obtain rfl := eq_truth_of_truth? hc
    cases (test_truth false).symm.trans hb
    exact he
  next => exact hp

theorem refines_orElse (o f : Expr) (t : Ty) :
    Refines (eval w store (.coalesce o f t)) (eval w store (o.orElse f t)) := by
  intro h p hp
  obtain ⟨d, h₁, ho, he⟩ := bind_eq_ok.1 hp
  unfold Expr.orElse
  split
  next =>
    cases ho
    exact he
  next inner _ =>
    obtain ⟨c, h₂, hc, ho⟩ := bind_eq_ok.1 ho
    obtain ⟨_, ⟨⟩, hpair⟩ := lift_eq_ok.1 ho
    cases hpair
    cases he
    exact hc
  next => exact hp

end Dragon.Meaning
