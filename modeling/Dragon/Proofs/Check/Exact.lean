import Dragon.Proofs.Check.Expr
import Dragon.Proofs.Check.Inside

/-!
# Exact literals

The literals of checked statements are exact, those that are given to fields included.
-/
namespace Dragon.Check

open Typed

variable {s : State}

theorem Views.ensures {α : Type} {N : Kind → String → Prop} {Q : α → Prop} {m : Check α}
    (h : Views N Q m) (s : State) : Ensures m s fun a _ => Q a :=
  (h s).ensures.mono fun _ _ h => h.2

theorem expr_exact (t : Tree.Expr) (s : State) : Ensures (expr t) s fun e _ => e.Exact :=
  (expr_views t t.numerals_trivial).ensures s

theorem valueFor_exact (type : Ty) (t : Tree.Expr) (s : State) :
    Ensures (valueFor type t) s fun e _ => e.Exact :=
  (valueFor_views type t.numerals_trivial).ensures s

theorem forge_exact (ref : ObjectRef) (definition : Option Tree.Forge) (s : State) :
    Ensures (forge ref definition) s fun values _ => AllExact (values.map (·.2)) := by
  cases definition with
  | none => exact .pure (List.forall_mem_nil _)
  | some f =>
    obtain ⟨ps, body, span⟩ := f
    refine nested_ensures (.next fun _ _ => .next fun _ s₂ => ?_)
    exact ((forgeBody_views ref [] fun _ _ _ value _ _ => value.numerals_trivial).ensures s₂).mono
      fun _ _ h => h (List.forall_mem_nil _)

theorem initialFields_exact (ref : ObjectRef) (fields : List Field)
    (definition : Option Tree.Forge) (span : Span) (s : State) :
    Ensures (initialFields ref fields definition span) s fun inits _ =>
      ∀ e ∈ inits.filterMap (·.value), e.Exact := by
  refine .bind ((forge_exact ref definition s).mono fun values _ hvalues => ?_)
  refine .next fun _ _ => .pure fun e he => ?_
  obtain ⟨init, hinit, hvalue⟩ := List.mem_filterMap.1 he
  obtain ⟨f, -, rfl⟩ := List.mem_map.1 hinit
  obtain ⟨l, l', rfl, -⟩ := List.lookup_eq_some_iff.1 hvalue
  exact hvalues e (by simp)

/-- The expressions that stand directly in a checked statement have exact literals only. -/
theorem stmt_exact (t : Tree.Stmt) (s : State) :
    Ensures (stmt t) s fun st _ => ∀ e ∈ st.direct, e.Exact := by
  cases t with
  | declare mutable name type value span =>
    refine .next fun _ _ => .next fun _ s₁ => .bind ((valueFor_exact _ value s₁).mono
      fun e _ he => ?_)
    exact .next fun _ _ => .next fun _ _ => .pure (List.forall_mem_singleton.2 he)
  | function definition =>
    obtain ⟨name, ps, result, body, span⟩ := definition
    exact .next fun _ _ => .next fun _ _ => .next fun _ _ => .pure (by simp [Stmt.direct])
  | matter name definitions span =>
    exact .next fun _ _ => .next fun _ _ => .pure (by simp [Stmt.direct])
  | guild name definitions definition methodDefs span =>
    refine .next fun ref _ => .next fun fields _ => .next fun _ s₃ => ?_
    refine .bind ((initialFields_exact ref fields definition span s₃).mono fun inits _ h => ?_)
    exact .next fun _ _ => .next fun _ _ => .pure h
  | print value span =>
    refine .bind ((expr_exact value s).mono fun e s₁ he => ?_)
    exact .bind (((asValue_views (N := fun _ _ => True) he _).ensures s₁).mono fun v _ hv =>
      .pure (List.forall_mem_singleton.2 hv))
  | assign target value span =>
    refine .bind ((expr_exact target s).mono fun t _ ht => .next fun _ s₂ => ?_)
    exact .bind ((valueFor_exact _ value s₂).mono fun v _ hv =>
      .pure (List.forall_mem_cons.2 ⟨ht, List.forall_mem_singleton.2 hv⟩))
  | increment target span | decrement target span =>
    refine .bind ((expr_exact target s).mono fun t _ ht => ?_)
    exact .next fun _ _ => .next fun _ _ => .pure (List.forall_mem_singleton.2 ht)
  | return_ value span =>
    refine .next fun flags s₁ => ?_
    split
    · exact .fail _ _
    · cases value with
      | none => exact .next fun _ _ => .pure (by simp [Stmt.direct])
      | some t =>
        exact .next fun _ s₂ => .bind ((valueFor_exact _ t s₂).mono fun v _ hv =>
          .pure (List.forall_mem_singleton.2 hv))
  | branch test body alt span =>
    refine .bind ((expr_exact test s).mono fun t _ ht => ?_)
    exact .next fun _ _ => .next fun _ _ => .next fun _ _ =>
      .pure (List.forall_mem_singleton.2 ht)
  | while_ test body span | repeat_ test body span =>
    refine .bind ((expr_exact test s).mono fun t _ ht => ?_)
    exact .next fun _ _ => .next fun _ _ => .pure (List.forall_mem_singleton.2 ht)
  | range iterator low kind high body span =>
    refine .bind ((expr_exact low s).mono fun l _ hl => .next fun _ s₂ => ?_)
    refine .bind ((expr_exact high s₂).mono fun h _ hh => .next fun _ _ => ?_)
    exact .next fun _ _ => .next fun _ _ =>
      .pure (List.forall_mem_cons.2 ⟨hl, List.forall_mem_singleton.2 hh⟩)
  | forEach iterator collection body span =>
    refine .bind ((expr_exact collection s).mono fun c _ hc => ?_)
    split
    · exact .fail _ _
    · exact .next fun _ _ => .next fun _ _ => .pure (List.forall_mem_singleton.2 hc)
  | break_ span => exact .next fun _ _ => .next fun _ _ => .pure (by simp [Stmt.direct])
  | call callee args span outer =>
    exact .bind ((expr_exact _ s).mono fun e _ he => .pure (List.forall_mem_singleton.2 he))

theorem Becomes.exact {t : Tree.Stmt} {st : Stmt} (h : Becomes t st) :
    ∀ e ∈ st.direct, e.Exact := by
  obtain ⟨s, Γ, s', -, hrun⟩ := h
  exact stmt_exact t s st s' hrun

end Dragon.Check
