import Dragon.Proofs.Optimize.Simulation
import Dragon.Proofs.Type.Basic

/-!
# Optimized expressions follow the ones they come from

The result and the calls of an evaluation stay as they are up to the damage that shortcuts do, and
without damage they stay as they are.
-/
namespace Dragon.Meaning

open Typed

variable {w : World} {store : Store} {l r : Expr} {a b d : Datum} {h h₁ h₂ : List Call}

/-! ### Shortcuts -/

theorem eq_of_equal_int {m n : Int} (h : (Value.int m).equal (.int n) = true) : m = n := by
  have hsame : (Datum.int m).same (.int n) = true := by
    rw [same_int]
    simpa [Value.equal, Value.compare?, Value.number?, comparison?, Number.order?] using h
  simpa [Datum.same] using hsame

/-- A literal that counts as a whole number evaluates to it. -/
theorem eq_of_any_equal {n k : Int} (hl : l.number?.any (·.equal (.int k)) = true)
    (he : eval w store l h = .ok (.int n, h₁)) : n = k := by
  obtain ⟨v, hv, hk⟩ := (Option.any_eq_true ..).1 hl
  obtain ⟨-, ⟨m, -, rfl, hm⟩ | ⟨x, -, -, hx⟩⟩ := number?_cases hv he
  · cases hm
    exact eq_of_equal_int hk
  · cases hx

/-- On whole numbers, a shortcut has the result of the operation. -/
theorem int_value_of_shortcut? {op : BinaryOp} {s : Shortcut} {m n k : Int}
    (hs : shortcut? op l r = some s) (hl : eval w store l h = .ok (.int m, h₁))
    (hr : eval w store r h₁ = .ok (.int n, h₂)) (hk : intArithmetic op m n = .ok k) :
    s.value .int (.int m) (.int n) = .ok (.int k) := by
  have hlzero (hz : l.isZero = true) : m = 0 := eq_of_any_equal hz hl
  have hlone (hz : l.isOne = true) : m = 1 := eq_of_any_equal hz hl
  have hrzero (hz : r.isZero = true) : n = 0 := eq_of_any_equal hz hr
  have hrone (hz : r.isOne = true) : n = 1 := eq_of_any_equal hz hr
  cases op <;> simp only [shortcut?, reduceCtorEq] at hs <;> simp only [intArithmetic] at hk
  case div =>
    split_ifs at hk with hn
    cases hk
    split_ifs at hs <;> cases hs <;> simp_all [Shortcut.value]
  all_goals split_ifs at hs <;> cases hs <;> simp_all [Shortcut.value, operateUnary, Ty.is]

theorem value_of_shortcut? {op : BinaryOp} {s : Shortcut} {t : Ty} (ht : t.isNumeric = true)
    (hs : shortcut? op l r = some s) (hl : eval w store l h = .ok (a, h₁))
    (hr : eval w store r h₁ = .ok (b, h₂)) (hd : operate op t a b = .ok d)
    (hsame : alteration s op t a b = []) : s.value t a b = .ok d := by
  obtain ⟨m, n, k, rfl, rfl, rfl, hk, rfl⟩ | ⟨x, y, z, rfl, rfl, rfl, hz, rfl⟩ | ⟨_, _, rfl, _⟩ |
    ⟨_, rfl, _⟩ := operate_cases hd
  · exact int_value_of_shortcut? hs hl hr hk
  · have hdiffer : differ (s.value .float (.float x) (.float y)) (.float z) = false := by
      simpa [alteration, hd] using hsame
    cases s <;> simp_all [Shortcut.value, operateUnary, differ, Ty.is]
  · cases ht
  · cases ht

/-- A shortcut has the value of the operation, from the operand that it keeps. -/
theorem eval_shortcut {s : Shortcut} {t : Ty} {k₁ k₂ : List Call} (hd : s.value t a b = .ok d)
    (ht : t.isNumeric = true) (hl : s.keepsLeft = true → eval w store l h = .ok (a, h ++ k₁))
    (hr : s.keepsRight = true → eval w store r h = .ok (b, h ++ k₂)) :
    eval w store (s.apply l r t) h =
      .ok (d, h ++ ((if s.keepsLeft then k₁ else []) ++ if s.keepsRight then k₂ else [])) := by
  cases s with
  | left =>
    cases hd
    simpa [Shortcut.keepsLeft, Shortcut.keepsRight, Shortcut.apply] using hl rfl
  | right =>
    cases hd
    simpa [Shortcut.keepsLeft, Shortcut.keepsRight, Shortcut.apply] using hr rfl
  | negatedRight =>
    apply refines_negate
    simp only [Shortcut.keepsLeft, Shortcut.keepsRight]
    exact bind_eq_ok.2 ⟨b, h ++ k₂, by simpa using hr rfl, lift_eq_ok.2 ⟨d, hd, rfl⟩⟩
  | one =>
    refine eval_literal.2 ⟨d, ?_, by simp [Shortcut.keepsLeft, Shortcut.keepsRight]⟩
    cases hd
    obtain rfl | rfl := Ty.isNumeric_eq_true.1 ht <;> rfl

/-! ### Operations -/

theorem callsOf_of_ok {x : Eval Datum} {k : List Call} (hx : x h = .ok (a, h ++ k)) :
    callsOf x h = k.map .lost := by
  simp [callsOf, hx]

theorem combine_value (op : BinaryOp) (l r : Expr) (t : Ty) :
    (Expr.combine op l r t).value =
      match Expr.fold? op l r t, taken? op l r t with
      | some folded, _ => folded.value
      | none, some s => s.apply l r t
      | none, none => .binary op l r t := by
  unfold Expr.combine taken?
  cases hf : Expr.fold? op l r t with
  | some folded => rfl
  | none =>
    by_cases ht : t.isNumeric = true
    · cases hs : shortcut? op l r <;> simp [ht, identity?_eq, hs]
    · simp [ht]

/-- Both operands, and then the operation. -/
def operation (op : BinaryOp) (t : Ty) (x y : Eval Datum) : Eval Datum := do
  let a ← x
  let b ← y
  lift (operate op t a b)

theorem eval_binary {op : BinaryOp} (hop : op ≠ .and ∧ op ≠ .or) (l r : Expr) (t : Ty) :
    eval w store (.binary op l r t) = operation op t (eval w store l) (eval w store r) := by
  cases op <;> first | rfl | simp at hop

theorem operation_eq_ok {op : BinaryOp} {t : Ty} {x y : Eval Datum} {p : Datum × List Call} :
    operation op t x y h = .ok p ↔ ∃ a h₁ b h₂ d, x h = .ok (a, h₁) ∧ y h₁ = .ok (b, h₂) ∧
      operate op t a b = .ok d ∧ p = (d, h₂) := by
  simp only [operation, bind_eq_ok, lift_eq_ok]
  constructor
  · rintro ⟨a, h₁, hx, b, h₂, hy, d, hd, rfl⟩
    exact ⟨a, h₁, b, h₂, d, hx, hy, hd, rfl⟩
  · rintro ⟨a, h₁, b, h₂, d, hx, hy, hd, rfl⟩
    exact ⟨a, h₁, hx, b, h₂, hy, d, hd, rfl⟩

theorem refines_fold {op : BinaryOp} {t : Ty} {folded : Logged Expr}
    (hf : Expr.fold? op l r t = some folded) :
    Refines (operation op t (eval w store l) (eval w store r)) (eval w store folded.value) := by
  intro h p hp
  obtain ⟨a, h₁, b, h₂, d, ha, hb, hd, rfl⟩ := operation_eq_ok.1 hp
  obtain ⟨rfl, rfl, hfolded⟩ := eval_of_fold? hf ha hb hd
  exact hfolded _

theorem Simulates.operation {op : BinaryOp} {t : Ty} {x₁ x₂ y₁ y₂ : Eval Datum}
    {D E : List Call → List Damage} (hx : Simulates w x₁ x₂ D) (hy : Simulates w y₁ y₂ E) :
    Simulates w (operation op t x₁ y₁) (operation op t x₂ y₂)
      (fun h => D h ++ afterwards x₁ (fun _ => E) h) :=
  (hx.bind fun a => hy.bind fun b => .lift (operate op t a b)).congr fun h => by simp

theorem alteration_eq_nil {s : Shortcut} {op : BinaryOp} {t : Ty}
    (hs : .altered ∉ alteration s op t a b) : alteration s op t a b = [] := by
  unfold alteration at hs ⊢
  split at hs
  · split_ifs at hs ⊢ with hdiffer
    · simp at hs
    · rfl
  · rfl

/-- A shortcut follows the operation it stands for, but for the calls of what it leaves out. -/
theorem simulates_shortcut {op : BinaryOp} {l r : Expr} {t : Ty} {s : Shortcut} {x y : Eval Datum}
    {D E : List Call → List Damage} (ht : t.isNumeric = true) (hs : shortcut? op l r = some s)
    (hx : Simulates w x (eval w store l) D) (hy : Simulates w y (eval w store r) E) :
    Simulates w (operation op t x y) (eval w store (s.apply l r t)) (fun h =>
      D h ++ (if s.keepsLeft then [] else callsOf (eval w store l) h) ++
        afterwards x (fun a h₁ =>
          E h₁ ++ (if s.keepsRight then [] else callsOf (eval w store r) h₁) ++
            afterwards y (fun b _ => alteration s op t a b) h₁) h) := by
  intro h h' p h₂ hp halt hcomp
  obtain ⟨a, h₁, b, h₂, d, ha, hb, hd, ⟨⟩⟩ := operation_eq_ok.1 hp
  simp only [afterwards_of_ok ha, afterwards_of_ok hb] at halt hcomp ⊢
  have hsame : alteration s op t a b = [] :=
    alteration_eq_nil fun hmem => halt (by simp [hmem])
  simp only [hsame, List.append_nil, List.append_assoc, List.mem_append, not_or] at halt hcomp ⊢
  obtain ⟨c₁, k₁, rfl, hl, hk₁, hlen₁⟩ := hx h h' a h₁ ha halt.1 hcomp.left
  have hw : w.Functional ∨ h' = h ∧ D h = [] ∧
      (if s.keepsLeft then [] else callsOf (eval w store l) h) = [] ∧ E (h ++ c₁) = [] := by
    refine hcomp.imp_right fun ⟨heq, hnil⟩ => ?_
    simp only [List.append_eq_nil_iff] at hnil
    exact ⟨heq, hnil.1, hnil.2.1, hnil.2.2.1⟩
  have hcomp₂ : Comparable w (h ++ c₁) (h' ++ k₁) (E (h ++ c₁)) :=
    hw.imp_right fun ⟨heq, hD, _, hE⟩ => ⟨by rw [heq, eq_of_sublist hk₁ hlen₁ hD], hE⟩
  obtain ⟨c₂, k₂, rfl, hr, hk₂, hlen₂⟩ := hy _ _ b h₂ hb halt.2.2.1 hcomp₂
  -- The calls of an operand are the same whether it is left out here or evaluated there.
  have hL : callsOf (eval w store l) h = k₁.map .lost :=
    callsOf_of_ok (eval_transport (hw.imp_right fun ⟨heq, _⟩ => heq.symm) hl)
  have hR : callsOf (eval w store r) (h ++ c₁) = k₂.map .lost :=
    callsOf_of_ok (eval_transport (hcomp₂.imp_right fun ⟨heq, _⟩ => heq.symm) hr)
  have hr' (hs : s.keepsRight = true) : eval w store r h' = .ok (b, h' ++ k₂) := by
    have hdrop : s.keepsLeft = false := by
      cases s <;> simp_all [Shortcut.keepsLeft, Shortcut.keepsRight]
    refine eval_transport (hw.imp_right fun ⟨_, _, hnil, _⟩ => ?_) hr
    simp only [hdrop, hL] at hnil
    simp_all
  refine ⟨c₁ ++ c₂, _, by simp, eval_shortcut (value_of_shortcut? ht hs hl hr hd hsame) ht
    (fun _ => hl) hr', ?_, ?_⟩
  · refine List.Sublist.append ?_ ?_ <;> split_ifs
    · exact hk₁
    · exact List.nil_sublist _
    · exact hk₂
    · exact List.nil_sublist _
  · simp only [hL, hR]
    split_ifs <;> simp <;> omega

/-- Folds and shortcuts follow the operation, up to what shortcuts drop. -/
theorem simulates_combine {op : BinaryOp} {l r : Expr} {t : Ty} {x y : Eval Datum}
    {D E : List Call → List Damage} (hop : op ≠ .and ∧ op ≠ .or)
    (hx : Simulates w x (eval w store l) D) (hy : Simulates w y (eval w store r) E) :
    Simulates w (operation op t x y) (eval w store (Expr.combine op l r t).value)
      (operationDamage op t x y D E l r (eval w store l) (eval w store r)) := by
  rw [combine_value]
  unfold operationDamage
  cases hs : taken? op l r t with
  | none =>
    refine (hx.operation hy).refines ?_
    cases hf : Expr.fold? op l r t with
    | none => exact .of_eq (eval_binary hop l r t).symm
    | some folded => exact refines_fold hf
  | some s =>
    obtain ⟨hcond, hs⟩ := Option.ite_none_right_eq_some.1 hs
    simp only [Bool.and_eq_true, Option.isNone_iff_eq_none] at hcond
    rw [hcond.1]
    exact simulates_shortcut hcond.2 hs hx hy

/-! ### Expressions -/

mutual

/-- An optimized expression follows the one that it comes from. -/
theorem simulates_optimize (w : World) (store : Store) (e : Expr) :
    Simulates w (eval w store e) (eval w store e.optimize.value) (damage w store e) := by
  cases e with
  | unary op e t =>
    refine Simulates.refines ?_ (refines_applyUnary op e.optimize.value t)
    refine ((simulates_optimize w store e).bind fun d => .lift (operateUnary op d)).congr ?_
    simp [damage]
  | binary op l r t =>
    have hl := simulates_optimize w store l
    have hr := simulates_optimize w store r
    cases op
    case and => exact (hl.shortCircuit false hr).refines (refines_conjoin _ _ t)
    case or => exact (hl.shortCircuit true hr).refines (refines_disjoin _ _ t)
    all_goals exact simulates_combine (by simp) hl hr
  | ternary c l r t =>
    have hc := simulates_optimize w store c
    have hl := simulates_optimize w store l
    have hr := simulates_optimize w store r
    exact (hc.choice hl hr).refines (refines_choose _ _ _ t)
  | coalesce o f t =>
    have ho := simulates_optimize w store o
    have hf := simulates_optimize w store f
    exact (ho.content hf).refines (refines_orElse _ _ t)
  | list es t =>
    refine ((simulates_optimizeAll w store es).bind fun ds => .pure (Datum.list ds)).congr ?_
    simp [damage]
  | subscript c i t =>
    have hc := simulates_optimize w store c
    have hi := simulates_optimize w store i
    refine (hc.bind fun c => hi.bind fun i => .lift (elementAt c i)).congr ?_
    simp [damage]
  | call f args t =>
    have hf := simulates_self w store f
    have hargs := simulates_optimizeArgs w store args
    refine (hf.bind fun f => hargs.bind fun ds => .perform ⟨.function f, ds⟩).congr ?_
    simp [damage]
  | construct o args t =>
    have hargs := simulates_optimizeArgs w store args
    refine (hargs.bind fun ds => .perform ⟨.constructor o.id, ds⟩).congr ?_
    simp [damage]
  | template parts t =>
    refine ((simulates_optimizeParts w store parts).bind fun s => .pure (Datum.string s)).congr ?_
    simp [damage]
  | foreignUnary | foreignBinary | misplaced => exact .fault _
  | _ => exact simulates_self w store _

theorem simulates_optimizeAll (w : World) (store : Store) (es : List Expr) :
    Simulates w (evalAll w store es) (evalAll w store (optimizeAll es).value)
      (damageAll w store es) := by
  cases es with
  | nil => exact .pure _
  | cons e rest =>
    have he := simulates_optimize w store e
    have hrest := simulates_optimizeAll w store rest
    refine (he.bind fun d => hrest.bind fun ds => .pure (d :: ds)).congr ?_
    simp [damageAll]

theorem simulates_optimizeArgs (w : World) (store : Store) (args : List Arg) :
    Simulates w (evalArgs w store args) (evalArgs w store (optimizeArgs args).value)
      (damageArgs w store args) := by
  match args with
  | [] => exact .pure _
  | .mk name e :: rest =>
    have he := simulates_optimize w store e
    have hrest := simulates_optimizeArgs w store rest
    refine (he.bind fun d => hrest.bind fun ds => .pure (d :: ds)).congr ?_
    simp [damageArgs]

theorem simulates_optimizeParts (w : World) (store : Store) (parts : List Part) :
    Simulates w (evalParts w store parts) (evalParts w store (optimizeParts parts).value)
      (damageParts w store parts) := by
  match parts with
  | [] => exact .pure _
  | .text s :: rest =>
    have hrest := simulates_optimizeParts w store rest
    refine (hrest.bind fun t => .pure (s ++ t)).congr ?_
    simp [damageParts]
  | .hole e :: rest =>
    have he := simulates_optimize w store e
    have hrest := simulates_optimizeParts w store rest
    refine (he.bind fun d => hrest.bind fun t => .pure (w.text d ++ t)).congr ?_
    simp [damageParts]

end

end Dragon.Meaning
