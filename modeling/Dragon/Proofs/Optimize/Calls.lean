import Dragon.Proofs.Optimize.Expr
import Dragon.Proofs.Source

/-!
# Calls of optimized expressions

Calls are never reordered, but they are dropped: a shortcut leaves an operand out even when
evaluating it calls something. `damage` says which calls go missing in an evaluation. The calls stay
the same exactly when it is empty, as long as no double is altered.
-/
namespace Dragon.Meaning

open Typed

variable {w : World} {store : Store} {e : Expr} {d : Datum} {before calls : List Call}

/-- Where optimization does no damage, an evaluation stays as it is in every world. -/
theorem eval_optimize_of_damage_nil (hrun : eval w store e before = .ok (d, before ++ calls))
    (hnil : damage w store e before = []) :
    eval w store e.optimize.value before = .ok (d, before ++ calls) := by
  obtain ⟨c, k, hc, hopt, hk, hlen⟩ := simulates_optimize w store e before before d _ hrun
    (by simp [hnil]) (.inr ⟨rfl, hnil⟩)
  obtain rfl : calls = c := List.append_cancel_left hc
  rw [hopt, eq_of_sublist hk hlen hnil]

/-- In a world without a memory, what is left are some of the calls, in the same order, and as many
are missing as the damage counts. -/
theorem eval_optimize_of_functional (hw : w.Functional)
    (hrun : eval w store e before = .ok (d, before ++ calls))
    (hexact : .altered ∉ damage w store e before) :
    ∃ kept, eval w store e.optimize.value before = .ok (d, before ++ kept) ∧
      kept.Sublist calls ∧ calls.length = kept.length + (damage w store e before).length := by
  obtain ⟨c, k, hc, hopt, hk, hlen⟩ :=
    simulates_optimize w store e before before d _ hrun hexact (.inl hw)
  obtain rfl : calls = c := List.append_cancel_left hc
  exact ⟨k, hopt, hk, hlen⟩

/-- Take an evaluation in which no double is altered. If no call is lost, the optimized expression
has the same result and makes the same calls in the same order. In a world without a memory it
always has the same result and makes some of the calls in the same order, and it makes all of them
only if none is lost. -/
theorem calls_optimize_iff (w : World) (store : Store) (e : Expr) (before calls : List Call)
    (d : Datum) (hrun : eval w store e before = .ok (d, before ++ calls))
    (hexact : .altered ∉ damage w store e before) :
    (damage w store e before = [] →
      eval w store e.optimize.value before = .ok (d, before ++ calls)) ∧
    (w.Functional → ∃ kept, eval w store e.optimize.value before = .ok (d, before ++ kept) ∧
      kept.Sublist calls ∧ (kept = calls ↔ damage w store e before = [])) := by
  refine ⟨eval_optimize_of_damage_nil hrun, fun hw => ?_⟩
  obtain ⟨kept, hopt, hk, hlen⟩ := eval_optimize_of_functional hw hrun hexact
  refine ⟨kept, hopt, hk, fun heq => ?_, eq_of_sublist hk hlen⟩
  rw [heq] at hlen
  exact List.length_eq_zero_iff.1 (by omega)

section Vanishing

/-- A world in which every call gives two. -/
def twoWorld : World where
  reply _ _ := .int 2
  member _ _ _ _ := .error .mismatch
  self := .absent
  text _ := ""

/-- A store in which every number is that of a function. -/
def functionStore : Store := fun id => some (.function id)

/-- What is put out in a program that multiplies the result of a call by zero. -/
def vanishing : Expr :=
  match analyzed "don f() -> int \x7b return 2; \x7d proclaim f() * 0;" with
  | [_, .print e] => e
  | _ => .emptyList .int

theorem eval_vanishing : ∃ c, eval twoWorld functionStore vanishing [] = .ok (.int 0, [c]) := by
  have hrun : (eval twoWorld functionStore vanishing []).toOption.any
      (fun r => r.1.isInt 0 && r.2.length == 1) = true := by decide +kernel
  obtain ⟨⟨d, calls⟩, heval, htest⟩ := exists_of_any hrun
  obtain ⟨hd, hcalls⟩ := Bool.and_eq_true_iff.1 htest
  obtain ⟨c, rfl⟩ : ∃ c, calls = [c] := List.length_eq_one_iff.1 (beq_iff_eq.1 hcalls)
  obtain rfl : d = .int 0 := Datum.eq_int hd
  exact ⟨c, heval⟩

/-- The call of an accepted program is made before optimization and not after it. -/
theorem calls_vanishing : ∃ c, eval twoWorld functionStore vanishing [] = .ok (.int 0, [c]) ∧
    eval twoWorld functionStore vanishing.optimize.value [] = .ok (.int 0, []) := by
  obtain ⟨c, heval⟩ := eval_vanishing
  refine ⟨c, heval, ?_⟩
  have hopt : (eval twoWorld functionStore vanishing.optimize.value []).toOption.any
      (fun r => r.1.isInt 0 && r.2.isEmpty) = true := by decide +kernel
  obtain ⟨⟨d, calls⟩, hrun, htest⟩ := exists_of_any hopt
  obtain ⟨hd, hcalls⟩ := Bool.and_eq_true_iff.1 htest
  obtain rfl : calls = [] := List.isEmpty_iff.1 hcalls
  obtain rfl : d = .int 0 := Datum.eq_int hd
  exact hrun

theorem calls_optimize_iff_vanishing : ∃ c, ∃ kept : List Call,
    eval twoWorld functionStore vanishing.optimize.value [] = .ok (.int 0, kept) ∧
      kept.Sublist [c] ∧ (kept = [c] ↔ damage twoWorld functionStore vanishing [] = []) := by
  obtain ⟨c, heval⟩ := eval_vanishing
  have hexact : (damage twoWorld functionStore vanishing []).all Damage.isLost = true := by
    decide +kernel
  have hmem : .altered ∉ damage twoWorld functionStore vanishing [] := fun hmem =>
    nomatch List.all_eq_true.1 hexact _ hmem
  obtain ⟨kept, hkept⟩ := (calls_optimize_iff twoWorld functionStore vanishing [] _ _ heval
    hmem).2 fun _ _ => ⟨rfl, rfl⟩
  exact ⟨c, kept, hkept⟩

end Vanishing

end Dragon.Meaning
