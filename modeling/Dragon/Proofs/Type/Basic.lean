import Dragon.Symbol

/-!
# Types are equivalent and assignable to themselves

A type is aligned when the functions in it know the names of all their parameters or of none; all
types that a check makes are.
-/
namespace Dragon.Ty

/-! ### Reflexivity -/

mutual

@[simp] theorem equivalent_refl (t : Ty) : t.equivalent t = true := by
  cases t with
  | prim p => simp [equivalent]
  | list a => exact equivalent_refl a
  | optional a => exact equivalent_refl a
  | function ps r ns =>
    simp only [equivalent, equivalent_refl r, allEquivalent_refl ps, Bool.and_self]
  | object o => simp [equivalent]

theorem allEquivalent_refl (ts : List Ty) : allEquivalent ts ts = true := by
  cases ts with
  | nil => rfl
  | cons t ts => simp only [allEquivalent, equivalent_refl t, allEquivalent_refl ts, Bool.and_self]

end

@[simp] theorem assignable_refl (t : Ty) : t.assignable t = true := by
  cases t <;> simp [assignable]

theorem is_eq_true {t : Ty} {p : Prim} : t.is p = true ↔ t = .prim p := by
  cases t <;> simp [is]

theorem isNumeric_eq_true {t : Ty} : t.isNumeric = true ↔ t = .int ∨ t = .float := by
  simp [isNumeric, is_eq_true]

theorem eq_of_equivalent_prim {t : Ty} {p : Prim} (h : (Ty.prim p).equivalent t = true) :
    t = .prim p := by
  cases t <;> simp_all [equivalent]

theorem eq_list {t a : Ty} (h : t.element? = some a) : t = .list a := by
  cases t <;> simp_all [element?]

theorem eq_optional {t a : Ty} (h : t.base? = some a) : t = .optional a := by
  cases t <;> simp_all [base?]

theorem eq_object {t : Ty} {o : ObjectRef} (h : t.object? = some o) : t = .object o := by
  cases t <;> simp_all [object?]

/-! ### Alignment -/

mutual

def Aligned : Ty → Prop
  | prim _ | object _ => True
  | list element => element.Aligned
  | optional base => base.Aligned
  | function params result names =>
    (names = [] ∨ names.length = params.length) ∧ allAligned params ∧ result.Aligned

def allAligned : List Ty → Prop
  | [] => True
  | t :: ts => t.Aligned ∧ allAligned ts

end

theorem allAligned_iff {ts : List Ty} : allAligned ts ↔ ∀ t ∈ ts, t.Aligned := by
  induction ts with
  | nil => simp [allAligned]
  | cons t ts ih => simp [allAligned, ih]

end Dragon.Ty
