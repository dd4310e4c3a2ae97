import Dragon.Proofs.Script.Grouping

/-!
# The types of optimized expressions

Whatever an expression of an accepted program is simplified to can stand where the expression stood:
its type is assignable to the one before, and the same where that is a type of numbers, of strings
or of truth values.
-/
namespace Dragon

namespace Typed

theorem Expr.coherent_of_wellTyped {T : Objects} {Γ : Context} (e : Expr)
    (he : e.WellTyped T Γ) : e.Coherent :=
  each_of_wellTyped (fun e => e.fits_of_wellTyped) e he

/-! ### Statements -/

section Statements

variable {T : Objects} {Γ : Context}

theorem coherent_fields {fields : List FieldInit} {kind : ObjectKind}
    (h : ∀ f ∈ fields, f.WellTyped T Γ kind) : ∀ e ∈ fields.filterMap (·.value), e.Coherent := by
  intro e he
  obtain ⟨⟨field, value⟩, hf, hvalue⟩ := List.mem_filterMap.1 he
  obtain rfl : value = some e := hvalue
  cases kind with
  | matter => exact (h _ hf).elim
  | guild => exact e.coherent_of_wellTyped (h _ hf).1

/-- All expressions of a well typed statement are coherent. -/
theorem Stmt.coherent_direct {s : Stmt} (hs : s.WellTyped T Γ) : ∀ e ∈ s.direct, e.Coherent := by
  match s with
  | .object kind ref fields parameters methods => exact coherent_fields hs.2.2.2.1
  | .declare _ _ e | .print e | .increment e | .decrement e | .branch e _ _ | .while_ e _
  | .repeat_ e _ | .forEach _ e _ =>
    exact List.forall_mem_singleton.2 (e.coherent_of_wellTyped hs.1)
  | .call e => exact List.forall_mem_singleton.2 (e.coherent_of_wellTyped hs)
  | .return_ e =>
    obtain ⟨f, -, -, he, -⟩ := hs
    exact List.forall_mem_singleton.2 (e.coherent_of_wellTyped he)
  | .assign target source =>
    exact List.forall_mem_cons.2 ⟨target.coherent_of_wellTyped hs.1,
      List.forall_mem_singleton.2 (source.coherent_of_wellTyped hs.2.1)⟩
  | .range _ low _ high _ =>
    exact List.forall_mem_cons.2 ⟨low.coherent_of_wellTyped hs.1,
      List.forall_mem_singleton.2 (high.coherent_of_wellTyped hs.2.2.1)⟩
  | .function .. | .shortReturn | .break_ => exact nofun
  | .foreignRange .. | .expr _ | .bare .. | .misplaced .. => exact hs.elim

end Statements

theorem mem_optimizeFields {fields : List FieldInit} {e : Expr}
    (he : e ∈ (optimizeFields fields).value.filterMap (·.value)) :
    ∃ e₀ ∈ fields.filterMap (·.value), e = e₀.optimize.value := by
  rw [optimizeFields_eq, List.filterMap_map] at he
  obtain ⟨f, hf, hvalue⟩ := List.mem_filterMap.1 he
  obtain ⟨e₀, he₀, rfl⟩ := Option.map_eq_some_iff.1 hvalue
  exact ⟨e₀, List.mem_filterMap.2 ⟨f, hf, he₀⟩, rfl⟩

/-- The expressions of an optimized statement are its expressions optimized, if not the same. -/
theorem Stmt.mem_direct_optimized {s : Stmt} {e : Expr} (he : e ∈ s.optimized.direct) :
    ∃ e₀ ∈ s.direct, e = e₀.optimize.value ∨ e = e₀ := by
  match s with
  | .object .matter ref fields parameters methods => exact ⟨e, he, .inr rfl⟩
  | .object .guild ref fields parameters methods =>
    obtain ⟨e₀, he₀, heq⟩ := mem_optimizeFields he
    exact ⟨e₀, he₀, .inl heq⟩
  | .declare _ _ e₀ | .print e₀ | .increment e₀ | .decrement e₀ | .return_ e₀ | .call e₀
  | .expr e₀ | .branch e₀ _ _ | .while_ e₀ _ | .repeat_ e₀ _ | .forEach _ e₀ _ =>
    exact ⟨e₀, List.mem_cons_self, .inl (List.mem_singleton.1 he)⟩
  | .assign l r | .range _ l _ r _ | .foreignRange _ l _ r _ =>
    obtain rfl | he := List.mem_cons.1 he
    · exact ⟨l, List.mem_cons_self, .inl rfl⟩
    · exact ⟨r, List.mem_cons_of_mem _ List.mem_cons_self, .inl (List.mem_singleton.1 he)⟩
  | .function .. | .shortReturn | .break_ | .bare .. | .misplaced .. => cases he

end Typed

open Typed

section Accepted

variable {P : Expr → Prop}
  (hchecked : ∀ t s, Check.Becomes t s → ∀ e ∈ s.direct, e.Each P)
  (hoptimize : ∀ e : Expr, e.Each P → e.optimize.value.Each P)
include hchecked hoptimize

theorem ComesTo.each_direct {optimize : Bool} {t : Tree.Stmt} {s : Stmt}
    (h : ComesTo optimize t s) : ∀ e ∈ s.direct, e.Each P := by
  obtain ⟨s₀, hbecomes, rfl⟩ := h
  have hdirect := hchecked t s₀ hbecomes
  cases optimize with
  | false => exact hdirect
  | true =>
    intro e he
    obtain ⟨e₀, he₀, rfl | rfl⟩ := Stmt.mem_direct_optimized he
    · exact hoptimize e₀ (hdirect e₀ he₀)
    · exact hdirect _ he₀

/-- What holds everywhere in checked expressions, and still when they are optimized, holds
everywhere in an accepted program. -/
theorem each_of_accepted {tree : Tree.Program} {program : Program}
    (haccepted : (Checked.ofTree tree).result = .ok program) (optimize : Bool) :
    ∀ e ∈ (if optimize then program.optimize.value else program).exprs, e.Each P := by
  intro e he
  obtain ⟨outer, houter, he⟩ := List.mem_flatMap.1 he
  obtain ⟨s, hs, houter⟩ := List.mem_flatMap.1 houter
  obtain ⟨kept, -, -, hkept⟩ := exists_inside_of_accepted haccepted optimize
  obtain ⟨t, -, hcomes⟩ := exists_of_mem_right hkept hs
  have hdirect := hcomes.each_direct hchecked hoptimize outer houter
  exact Expr.forall_inside (fun _ h => h.part) outer hdirect e he

end Accepted

theorem Check.Becomes.coherent {t : Tree.Stmt} {s : Stmt} (h : Becomes t s) :
    ∀ e ∈ s.direct, e.Coherent := by
  obtain ⟨T, Γ, hwell⟩ := h.wellTyped
  exact Stmt.coherent_direct hwell

/-- Everything in an accepted program is coherent, and still is when the program is optimized. -/
theorem coherent_of_accepted {tree : Tree.Program} {program : Program}
    (haccepted : (Checked.ofTree tree).result = .ok program) (optimize : Bool) :
    ∀ e ∈ (if optimize then program.optimize.value else program).exprs, e.Coherent :=
  each_of_accepted (fun _ _ h => h.coherent) (fun e he => (e.replaces_optimize he).coherent)
    haccepted optimize

/-- Whatever an expression of an accepted program is simplified to can stand in its place, and has
its type where that is one of numbers, strings or truth values. The same holds of all expressions
that optimization leaves. -/
theorem type_optimize_of_accepted {tree : Tree.Program} {program : Program}
    (haccepted : (Checked.ofTree tree).result = .ok program) (optimize : Bool) :
    ∀ e ∈ (if optimize then program.optimize.value else program).exprs,
      e.optimize.value.type.assignable e.type = true ∧
      (e.type ∈ [Ty.int, .float, .string, .bool] → e.optimize.value.type = e.type) := by
  intro e he
  have hnarrower := (e.replaces_optimize (coherent_of_accepted haccepted optimize e he)).narrower
  exact ⟨hnarrower, fun hscalar => Ty.eq_of_assignable_scalar hscalar hnarrower⟩

/-- A fallback of a narrower type than what it is for, and a choice between functions whose
parameters have different names. -/
def narrowings : String :=
  "don f(a: int) -> int \x7b return a; \x7d don g(b: int) -> int \x7b return b; \x7d" ++
  " fact v: any = naught any ?? 1; fact h: (int) -> int = shant ? g : f; proclaim h(1 + 0);"

theorem type_optimize_narrowings :
    ∃ tree program, Tree.Program.ofSource "" narrowings = .ok tree ∧
      (Checked.ofTree tree).result = .ok program ∧
      (∃ e ∈ program.exprs, e.type = .any ∧ e.optimize.value.type = .int) ∧
      ∀ e ∈ program.exprs, e.optimize.value.type.assignable e.type = true ∧
        (e.type ∈ [Ty.int, .float, .string, .bool] → e.optimize.value.type = e.type) := by
  have haccepts : accepts narrowings (fun p => p.exprs.any fun e =>
      e.type.is .any && e.optimize.value.type.is .int) = true := by
    refine Chars.accepts (.append .lit .lit) ?_
    decide +kernel
  obtain ⟨tree, program, htree, hprogram, hany⟩ := exists_of_accepts haccepts
  obtain ⟨e, he, htypes⟩ := List.any_eq_true.1 hany
  obtain ⟨hbefore, hafter⟩ := Bool.and_eq_true_iff.1 htypes
  exact ⟨tree, program, htree, hprogram,
    ⟨e, he, Ty.is_eq_true.1 hbefore, Ty.is_eq_true.1 hafter⟩,
    type_optimize_of_accepted hprogram false⟩

end Dragon
