import Dragon.Proofs.Type.Basic

/-!
# The order of types

Equivalence is symmetric and transitive, and values can be passed on: what may stand where a second
type is expected, may stand wherever the second may. Parameters of functions vary against the
function, so the middle one of three types is taken apart, not the first.
-/
namespace Dragon.Ty

variable {s t u r r' : Ty} {ps qs : List Ty} {names names' : List String}

/-! ### Equivalence -/

mutual

/-- Equivalence goes both ways. -/
theorem equivalent_symm (s t : Ty) (h : s.equivalent t = true) : t.equivalent s = true := by
  match s, t with
  | prim p, prim q =>
    obtain rfl : p = q := by simpa [equivalent] using h
    exact h
  | list a, list b => exact equivalent_symm a b h
  | optional a, optional b => exact equivalent_symm a b h
  | function ps r _, function qs r' _ =>
    simp only [equivalent, Bool.and_eq_true] at h ⊢
    exact ⟨equivalent_symm r r' h.1, allEquivalent_symm ps qs h.2⟩
  | object a, object b =>
    simp only [equivalent, beq_iff_eq] at h ⊢
    exact h.symm

theorem allEquivalent_symm (ps qs : List Ty) (h : allEquivalent ps qs = true) :
    allEquivalent qs ps = true := by
  match ps, qs with
  | [], [] => rfl
  | p :: ps, q :: qs =>
    simp only [allEquivalent, Bool.and_eq_true] at h ⊢
    exact ⟨equivalent_symm p q h.1, allEquivalent_symm ps qs h.2⟩

end

mutual

/-- Equivalence can be passed on. -/
theorem equivalent_trans (s t u : Ty) (h : s.equivalent t = true) (h' : t.equivalent u = true) :
    s.equivalent u = true := by
  match s, t, u with
  | prim p, prim q, prim _ =>
    obtain rfl : p = q := by simpa [equivalent] using h
    exact h'
  | list a, list b, list c => exact equivalent_trans a b c h h'
  | optional a, optional b, optional c => exact equivalent_trans a b c h h'
  | function ps r _, function qs r' _, function rs r'' _ =>
    simp only [equivalent, Bool.and_eq_true] at h h' ⊢
    exact ⟨equivalent_trans r r' r'' h.1 h'.1, allEquivalent_trans ps qs rs h.2 h'.2⟩
  | object a, object b, object c =>
    simp only [equivalent, beq_iff_eq] at h h' ⊢
    exact h.trans h'

theorem allEquivalent_trans (ps qs rs : List Ty) (h : allEquivalent ps qs = true)
    (h' : allEquivalent qs rs = true) : allEquivalent ps rs = true := by
  match ps, qs, rs with
  | [], [], [] => rfl
  | p :: ps, q :: qs, r :: rs =>
    simp only [allEquivalent, Bool.and_eq_true] at h h' ⊢
    exact ⟨equivalent_trans p q r h.1 h'.1, allEquivalent_trans ps qs rs h.2 h'.2⟩

end

/-! ### The expected type first -/

mutual

/-- The two readings of assignability call each other with the types exchanged, so each is shown to
be the other for a type on either side. -/
theorem accepts_eq (t s : Ty) :
    t.accepts s = s.assignable t ∧ s.accepts t = t.assignable s := by
  match t with
  | function ps r _ =>
    match s with
    | function qs r' _ =>
      obtain ⟨hr, hr'⟩ := accepts_eq r r'
      obtain ⟨hps, hps'⟩ := allAccept_eq ps qs
      simp only [accepts, assignable, hr, hr', hps, hps', is, Bool.false_or, and_self]
    | prim _ | list _ | optional _ | object _ => simp [accepts, assignable, is, equivalent]
  | prim _ | list _ | optional _ | object _ =>
    cases s <;> simp [accepts, assignable, is, equivalent]

theorem allAccept_eq (ts ss : List Ty) :
    allAccept ts ss = allAssignable ss ts ∧ allAccept ss ts = allAssignable ts ss := by
  match ts, ss with
  | [], [] | [], _ :: _ | _ :: _, [] => simp only [allAccept, allAssignable, and_self]
  | t :: ts, s :: ss =>
    obtain ⟨ht, ht'⟩ := accepts_eq t s
    obtain ⟨hts, hts'⟩ := allAccept_eq ts ss
    simp only [allAccept, allAssignable, ht, ht', hts, hts', and_self]

end

/-! ### Assignability -/

theorem assignable_any (s : Ty) : s.assignable .any = true := by
  cases s <;> simp only [assignable, is, BEq.rfl, Bool.true_or]

theorem assignable_of_equivalent (h : s.equivalent t = true) : s.assignable t = true := by
  cases s with
  | function ps r names => cases t <;> simp only [assignable, h, Bool.or_true, Bool.true_or]
  | prim _ | list _ | optional _ | object _ => simp only [assignable, h, Bool.or_true]

theorem allAssignable_of_allEquivalent {ps qs : List Ty} (h : allEquivalent ps qs = true) :
    allAssignable ps qs = true := by
  induction ps generalizing qs with
  | nil =>
    cases qs with
    | nil => simp only [allAssignable]
    | cons q qs => simp [allEquivalent] at h
  | cons p ps ih =>
    cases qs with
    | nil => simp [allEquivalent] at h
    | cons q qs =>
      simp only [allEquivalent, allAssignable, Bool.and_eq_true] at h ⊢
      exact ⟨assignable_of_equivalent h.1, ih h.2⟩

/-- Functions vary with their results and against their parameters; that they may also be
equivalent adds nothing. -/
theorem assignable_function :
    (function ps r names).assignable (function qs r' names') = true ↔
      r.assignable r' = true ∧ allAssignable qs ps = true := by
  simp only [assignable, is, Bool.false_or, Bool.or_eq_true, Bool.and_eq_true,
    (allAccept_eq ps qs).1, or_iff_right_iff_imp, equivalent]
  rintro ⟨hr, hps⟩
  exact ⟨assignable_of_equivalent hr, allAssignable_of_allEquivalent (allEquivalent_symm _ _ hps)⟩

/-- The three ways in which a type may stand where another is expected. -/
theorem assignable_cases (h : s.assignable t = true) :
    t = .any ∨ s.equivalent t = true ∨
      ∃ ps r names qs r' names', s = function ps r names ∧ t = function qs r' names' := by
  cases s with
  | function ps r names =>
    cases t with
    | function qs r' names' => exact .inr (.inr ⟨ps, r, names, qs, r', names', rfl, rfl⟩)
    | prim _ | list _ | optional _ | object _ =>
      simp only [assignable, Bool.or_false, Bool.or_eq_true, is_eq_true] at h
      exact h.imp_right .inl
  | prim _ | list _ | optional _ | object _ =>
    simp only [assignable, Bool.or_eq_true, is_eq_true] at h
    exact h.imp_right .inl

/-- Only a value of the same type stands where a primitive type other than `any` is expected. -/
theorem eq_of_assignable_prim {p : Prim} (hp : p ≠ .any) (h : s.assignable (.prim p) = true) :
    s = .prim p := by
  obtain hany | hequivalent | ⟨_, _, _, _, _, _, _, hfunction⟩ := assignable_cases h
  · exact absurd (prim.inj hany) hp
  · exact eq_of_equivalent_prim (equivalent_symm _ _ hequivalent)
  · cases hfunction

/-- Where `any` may stand, `any` is expected. -/
theorem eq_any_of_assignable (h : Ty.any.assignable t = true) : t = .any := by
  obtain hany | hequivalent | ⟨_, _, _, _, _, _, hfunction, _⟩ := assignable_cases h
  · exact hany
  · exact eq_of_equivalent_prim hequivalent
  · cases hfunction

theorem eq_function_of_assignable (h : s.assignable (function qs r' names') = true) :
    ∃ ps r names, s = function ps r names := by
  obtain hany | hequivalent | ⟨ps, r, names, _, _, _, rfl, _⟩ := assignable_cases h
  · cases hany
  · cases s with
    | function ps r names => exact ⟨ps, r, names, rfl⟩
    | prim _ | list _ | optional _ | object _ => simp [equivalent] at hequivalent
  · exact ⟨ps, r, names, rfl⟩

theorem any_or_function_of_assignable (h : (function ps r names).assignable t = true) :
    t = .any ∨ ∃ qs r' names', t = function qs r' names' := by
  obtain hany | hequivalent | ⟨_, _, _, qs, r', names', _, rfl⟩ := assignable_cases h
  · exact .inl hany
  · cases t with
    | function qs r' names' => exact .inr ⟨qs, r', names', rfl⟩
    | prim _ | list _ | optional _ | object _ => simp [equivalent] at hequivalent
  · exact .inr ⟨qs, r', names', rfl⟩

/-- Around a type that is no function there is nothing but equivalence. -/
private theorem assignable_trans_flat (ht : ∀ ps r names, t ≠ function ps r names)
    (h : s.assignable t = true) (h' : t.assignable u = true) : s.assignable u = true := by
  obtain rfl | hst | ⟨_, _, _, qs, r', names', _, hfunction⟩ := assignable_cases h
  · exact eq_any_of_assignable h' ▸ assignable_any s
  · obtain rfl | htu | ⟨qs, r', names', _, _, _, hfunction, _⟩ := assignable_cases h'
    · exact assignable_any s
    · exact assignable_of_equivalent (equivalent_trans s t u hst htu)
    · exact absurd hfunction (ht qs r' names')
  · exact absurd hfunction (ht qs r' names')

mutual

/-- Values can be passed on. The induction is on the type in the middle: the parameters of a
function are compared in the other direction, where neither end is a smaller type. -/
theorem assignable_trans (s t u : Ty) (h : s.assignable t = true) (h' : t.assignable u = true) :
    s.assignable u = true := by
  match t with
  | function qs r' names' =>
    obtain ⟨ps, r, names, rfl⟩ := eq_function_of_assignable h
    obtain rfl | ⟨rs, r'', names'', rfl⟩ := any_or_function_of_assignable h'
    · exact assignable_any _
    · rw [assignable_function] at h h' ⊢
      exact ⟨assignable_trans r r' r'' h.1 h'.1, allAssignable_trans rs qs ps h'.2 h.2⟩
  | prim _ | list _ | optional _ | object _ =>
    refine assignable_trans_flat (fun ps r names hfunction => ?_) h h'
    cases hfunction

theorem allAssignable_trans (ss ts us : List Ty) (h : allAssignable ss ts = true)
    (h' : allAssignable ts us = true) : allAssignable ss us = true := by
  match ss, ts, us with
  | [], [], [] => exact h
  | s :: ss, t :: ts, u :: us =>
    simp only [allAssignable, Bool.and_eq_true] at h h' ⊢
    exact ⟨assignable_trans s t u h.1 h'.1, allAssignable_trans ss ts us h.2 h'.2⟩
  | [], _ :: _, _ | _ :: _, [], _ => simp [allAssignable] at h
  | _, [], _ :: _ | _, _ :: _, [] => simp [allAssignable] at h'

end

end Dragon.Ty
