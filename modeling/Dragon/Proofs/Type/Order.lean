import Dragon.Proofs.Type.Assignable

/-!
# Assignability as an order

Types that may stand for each other are equivalent, so up to the names of parameters assignability
is a partial order, with `any` at its top. In a function the parameters are compared the other way
round, so both directions between two functions give both directions between their parameters, and
the induction goes through without a look at which one came from where.
-/
namespace Dragon.Ty

variable {s s' t t' : Ty}

mutual

/-- Types that may stand for each other are the same up to the names of parameters. -/
theorem equivalent_of_assignable (s t : Ty) (h : s.assignable t = true)
    (h' : t.assignable s = true) : s.equivalent t = true := by
  match s with
  | function ps r names =>
    obtain rfl | ⟨qs, r', names', rfl⟩ := any_or_function_of_assignable h
    · cases eq_any_of_assignable h'
    · rw [assignable_function] at h h'
      simp only [equivalent, Bool.and_eq_true]
      exact ⟨equivalent_of_assignable r r' h.1 h'.1, allEquivalent_of_allAssignable ps qs h'.2 h.2⟩
  | prim _ | list _ | optional _ | object _ =>
    obtain rfl | hequivalent | ⟨_, _, _, _, _, _, hfunction, _⟩ := assignable_cases h
    · rw [eq_any_of_assignable h']
      exact equivalent_refl _
    · exact hequivalent
    · cases hfunction

theorem allEquivalent_of_allAssignable (ss ts : List Ty) (h : allAssignable ss ts = true)
    (h' : allAssignable ts ss = true) : allEquivalent ss ts = true := by
  match ss, ts with
  | [], [] => simp only [allEquivalent]
  | s :: ss, t :: ts =>
    simp only [allAssignable, allEquivalent, Bool.and_eq_true] at h h' ⊢
    exact ⟨equivalent_of_assignable s t h.1 h'.1, allEquivalent_of_allAssignable ss ts h.2 h'.2⟩
  | [], _ :: _ | _ :: _, [] => simp [allAssignable] at h

end

/-- A type may give way to an equivalent one on either side. -/
theorem assignable_congr (hs : s.equivalent s' = true) (ht : t.equivalent t' = true) :
    s.assignable t = s'.assignable t' := by
  have himp {s s' t t' : Ty} (hs : s.equivalent s' = true) (ht : t.equivalent t' = true)
      (h : s.assignable t = true) : s'.assignable t' = true := by
    have hs' : s'.assignable s = true := assignable_of_equivalent (equivalent_symm s s' hs)
    exact assignable_trans s' t t' (assignable_trans s' s t hs' h) (assignable_of_equivalent ht)
  exact Bool.eq_iff_iff.2
    ⟨himp hs ht, himp (equivalent_symm s s' hs) (equivalent_symm t t' ht)⟩

/-- Equivalence is an equivalence relation, and assignability a partial order up to it: it is
reflexive and transitive, does not tell equivalent types apart, holds both ways just between
equivalent types, and has `any` for its greatest type, above which there is no other. -/
theorem assignable_isPartialOrder :
    Equivalence (fun s t : Ty => s.equivalent t = true) ∧
      (∀ t : Ty, t.assignable t = true) ∧
      (∀ s t u : Ty, s.assignable t = true → t.assignable u = true → s.assignable u = true) ∧
      (∀ s s' t t' : Ty, s.equivalent s' = true → t.equivalent t' = true →
        s.assignable t = s'.assignable t') ∧
      (∀ s t : Ty, s.assignable t = true ∧ t.assignable s = true ↔ s.equivalent t = true) ∧
      ∀ t : Ty, t.assignable .any = true ∧ (Ty.any.assignable t = true → t = .any) := by
  refine ⟨⟨equivalent_refl, equivalent_symm _ _, equivalent_trans _ _ _⟩, assignable_refl,
    assignable_trans, fun s s' t t' => assignable_congr, fun s t => ⟨?_, fun h => ?_⟩,
    fun t => ⟨assignable_any t, eq_any_of_assignable⟩⟩
  · rintro ⟨h, h'⟩
    exact equivalent_of_assignable s t h h'
  · exact ⟨assignable_of_equivalent h, assignable_of_equivalent (equivalent_symm s t h)⟩

/-- A function of anything stands where one of numbers is expected and not the other way round,
whatever its parameter is called. -/
theorem assignable_isPartialOrder_handler :
    let named := function [.any] .int ["event"]
    let written := function [.any] .int []
    let expected := function [.int] .any []
    named.equivalent written = true ∧ named.assignable expected = true ∧
      expected.assignable named = false ∧ written.assignable expected = true := by
  intro named written expected
  obtain ⟨-, -, -, hcongr, -⟩ := assignable_isPartialOrder
  have hequivalent : named.equivalent written = true := by decide
  have hassignable : named.assignable expected = true := by decide +kernel
  refine ⟨hequivalent, hassignable, by decide +kernel, ?_⟩
  rw [← hcongr named written expected expected hequivalent (equivalent_refl _)]
  exact hassignable

end Dragon.Ty
