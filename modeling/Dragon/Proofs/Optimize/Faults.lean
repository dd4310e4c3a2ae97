import Dragon.Proofs.Optimize.Simplify

/-!
# Evaluations that come to a division by zero

What divides by zero is no literal, so that the rules for literals do not apply to it, and a step of
simplification that is not about arithmetic keeps the operand that it is in.
-/
namespace Dragon.Meaning

open Typed

variable {α β : Type} {w : World} {store : Store} {e l r : Expr} {t : Ty} {h : List Call}

/-! ### Faults -/

theorem bind_eq_error {x : Eval α} {f : α → Eval β} {e : Fault} :
    (x >>= f) h = .error e ↔ x h = .error e ∨ ∃ a h₁, x h = .ok (a, h₁) ∧ f a h₁ = .error e := by
  have unfolded : (x >>= f) h = (x h >>= fun p => f p.1 p.2) := rfl
  rw [unfolded]
  cases x h with
  | error e' => simp [bind, Except.bind]
  | ok p => simp [bind, Except.bind, Prod.ext_iff]

theorem lift_eq_error {x : Except Fault α} {e : Fault} :
    (lift x : Eval α) h = .error e ↔ x = .error e := by
  cases x <;> simp [lift, Except.map]

theorem eval_literal_ne (v : Value) (t : Ty) :
    eval w store (.literal v t) h ≠ .error .divisionByZero := by
  unfold eval
  cases literal? v t with
  | none => simp [fault, lift_eq_error]
  | some d =>
    intro hrun
    cases hrun

/-! ### Evaluations that end in the same way -/

/-- An evaluation that makes no calls, and another that does the same where the first has a result
or comes to a division by zero. -/
structure Tracks (h : List Call) (x y : Eval α) : Prop where
  result : ∀ a h₁, x h = .ok (a, h₁) → h₁ = h ∧ y h = .ok (a, h)
  fault : x h = .error .divisionByZero → y h = .error .divisionByZero

namespace Tracks

theorem bind {x y : Eval α} {f g : α → Eval β} (hx : Tracks h x y)
    (hf : ∀ a, Tracks h (f a) (g a)) : Tracks h (x >>= f) (y >>= g) where
  result b h₂ hrun := by
    obtain ⟨a, h₁, ha, hb⟩ := bind_eq_ok.1 hrun
    obtain ⟨rfl, hy⟩ := hx.result a h₁ ha
    obtain ⟨rfl, hg⟩ := (hf a).result b h₂ hb
    exact ⟨rfl, bind_eq_ok.2 ⟨a, h₂, hy, hg⟩⟩
  fault hrun := by
    obtain hfault | ⟨a, h₁, ha, hb⟩ := bind_eq_error.1 hrun
    · exact bind_eq_error.2 (.inl (hx.fault hfault))
    · obtain ⟨rfl, hy⟩ := hx.result a h₁ ha
      exact bind_eq_error.2 (.inr ⟨a, h₁, hy, (hf a).fault hb⟩)

/-- An evaluation that makes no calls tracks itself. -/
theorem of_silent {x : Eval α} (hx : ∀ a h₁, x h = .ok (a, h₁) → h₁ = h) : Tracks h x x where
  result a h₁ ha := by
    obtain rfl := hx a h₁ ha
    exact ⟨rfl, ha⟩
  fault := id

theorem lift (x : Except Fault α) : Tracks h (lift x) (lift x) :=
  of_silent fun a h₁ ha => by
    obtain ⟨_, -, hpair⟩ := lift_eq_ok.1 ha
    cases hpair
    rfl

theorem pure (a : α) : Tracks h (pure a) (pure a) := lift (.ok a)

variable {x y x' y' z z' : Eval Datum}

theorem test (hx : Tracks h x y) : Tracks h (test x) (test y) :=
  hx.bind fun d => lift (truthOf d)

theorem shortCircuit (b : Bool) (hx : Tracks h x x') (hy : Tracks h y y') :
    Tracks h (shortCircuit b x y) (shortCircuit b x' y') := by
  refine hx.test.bind fun c => ?_
  split_ifs
  · exact pure _
  · exact hy.test.bind fun d => pure _

theorem choice (hx : Tracks h x x') (hy : Tracks h y y') (hz : Tracks h z z') :
    Tracks h (choice x y z) (choice x' y' z') := by
  refine hx.test.bind fun c => ?_
  split_ifs
  · exact hy
  · exact hz

theorem content (hx : Tracks h x x') (hy : Tracks h y y') :
    Tracks h (x >>= content y) (x' >>= content y') := by
  refine hx.bind fun d => ?_
  cases d with
  | absent => exact hy
  | present d => exact pure d
  | _ => exact lift (.error .mismatch)

end Tracks

/-! ### Steps that keep a division by zero -/

theorem eval_unary_eq_error {op : UnaryOp} :
    eval w store (.unary op e t) h = .error .divisionByZero ↔
      eval w store e h = .error .divisionByZero := by
  have hoperate (d : Datum) : operateUnary op d ≠ .error .divisionByZero := by
    intro hrun
    cases op <;> cases d <;> cases hrun
  refine bind_eq_error.trans ⟨?_, .inl⟩
  rintro (hfault | ⟨d, h₁, -, hd⟩)
  · exact hfault
  · exact absurd (lift_eq_error.1 hd) (hoperate d)

/-- What divides by zero is no literal. -/
theorem unknown_of_fault (he : eval w store e h = .error .divisionByZero) :
    e.number? = none ∧ e.boolean? = none ∧ e.truth? = none := by
  cases e with
  | literal v t => exact absurd he (eval_literal_ne v t)
  | _ => exact ⟨rfl, rfl, rfl⟩

theorem fault_negate (he : eval w store e h = .error .divisionByZero) :
    eval w store (e.negate t) h = .error .divisionByZero := by
  unfold Expr.negate
  rw [(unknown_of_fault he).1]
  dsimp only [Option.bind_none]
  split
  next => exact eval_unary_eq_error.1 he
  next => exact eval_unary_eq_error.2 he

theorem fault_applyUnary (op : UnaryOp) (he : eval w store e h = .error .divisionByZero) :
    eval w store (.applyUnary op e t) h = .error .divisionByZero := by
  cases op with
  | neg => exact fault_negate he
  | not =>
    rw [Expr.applyUnary, Expr.invert, (unknown_of_fault he).2.1]
    exact eval_unary_eq_error.2 he
  | some => exact eval_unary_eq_error.2 he

theorem test_eq_error {x : Eval Datum} :
    test x h = .error .divisionByZero ↔ x h = .error .divisionByZero := by
  refine bind_eq_error.trans ⟨?_, .inl⟩
  rintro (hfault | ⟨d, h₁, -, hd⟩)
  · exact hfault
  · cases d <;> simp [lift_eq_error, truthOf] at hd

/-- A connective divides by zero in its left operand, or in the right one if the left one does not
decide. -/
theorem shortCircuit_eq_error {c : Bool} {x y : Eval Datum} :
    shortCircuit c x y h = .error .divisionByZero ↔
      x h = .error .divisionByZero ∨
      ∃ h₁, x h = .ok (.bool !c, h₁) ∧ y h₁ = .error .divisionByZero := by
  unfold shortCircuit
  rw [bind_eq_error, test_eq_error]
  refine or_congr_right ⟨?_, ?_⟩
  · rintro ⟨b, h₁, hx, hy⟩
    split_ifs at hy with hb
    · cases hy
    · obtain rfl : b = !c := by cases b <;> cases c <;> simp_all
      obtain hy | ⟨d, h₂, -, hd⟩ := bind_eq_error.1 hy
      · exact ⟨h₁, test_eq_ok.1 hx, test_eq_error.1 hy⟩
      · cases hd
  · rintro ⟨h₁, hx, hy⟩
    refine ⟨!c, h₁, test_eq_ok.2 hx, ?_⟩
    rw [if_neg (by simp)]
    exact bind_eq_error.2 (.inl (test_eq_error.2 hy))

/-- A division by zero that decides a connective is not dropped. -/
theorem fault_connective {c : Bool} {l r f : Expr}
    (hrun : shortCircuit c (eval w store l) (eval w store r) h = .error .divisionByZero)
    (hf : eval w store f h = .error .divisionByZero) :
    eval w store
      (if l.truth? == some !c then r
      else if r.truth? == some !c then l
      else if l.truth? == some c then l
      else f) h = .error .divisionByZero := by
  obtain hl | ⟨h₁, hl, hr⟩ := shortCircuit_eq_error.1 hrun
  · simp only [(unknown_of_fault hl).2.2]
    split_ifs with hleave hright hdecide
    · cases hleave
    · exact hl
    · cases hdecide
    · exact hf
  · simp only [(unknown_of_fault hr).2.2]
    split_ifs with hleave hright hdecide
    · obtain rfl := eq_truth_of_truth? (by simpa using hleave)
      cases (eval_truth (!c)).symm.trans hl
      exact hr
    · cases hright
    · obtain rfl := eq_truth_of_truth? (by simpa using hdecide)
      have heq := (eval_truth c).symm.trans hl
      cases c <;> cases heq
    · exact hf

theorem fault_choose {c : Expr}
    (hrun : eval w store (.ternary c l r t) h = .error .divisionByZero) :
    eval w store (c.choose l r t) h = .error .divisionByZero := by
  unfold Expr.choose
  split
  next hc =>
    obtain rfl := eq_truth_of_truth? hc
    obtain htest | ⟨b, h₁, hb, he⟩ := bind_eq_error.1 hrun
    · cases (test_truth true).symm.trans htest
    · cases (test_truth true).symm.trans hb
      exact he
  next hc =>
    obtain rfl := eq_truth_of_truth? hc
    obtain htest | ⟨b, h₁, hb, he⟩ := bind_eq_error.1 hrun
    · cases (test_truth false).symm.trans htest
    · cases (test_truth false).symm.trans hb
      exact he
  next => exact hrun

theorem fault_orElse {o f : Expr}
    (hrun : eval w store (.coalesce o f t) h = .error .divisionByZero) :
    eval w store (o.orElse f t) h = .error .divisionByZero := by
  unfold Expr.orElse
  split
  next =>
    obtain ho | ⟨d, h₁, hd, hf⟩ := bind_eq_error.1 hrun
    · cases ho
    · cases hd
      exact hf
  next inner _ =>
    obtain ho | ⟨d, h₁, hd, hf⟩ := bind_eq_error.1 hrun
    · exact eval_unary_eq_error.1 ho
    · obtain ⟨c, h₂, -, hd⟩ := bind_eq_ok.1 hd
      obtain ⟨_, ⟨⟩, hpair⟩ := lift_eq_ok.1 hd
      cases hpair
      cases hf
  next => exact hrun

end Dragon.Meaning
