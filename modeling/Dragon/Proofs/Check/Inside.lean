import Dragon.Proofs.Typing.Stmt

/-!
# Statements and their checks

What a statement of an accepted program is known to be follows from the check of that statement
alone, since the statements of the program are those of its source one by one.
-/
namespace Dragon

/-! ### Related lists -/

theorem exists_of_mem_right {α β : Type} {R : α → β → Prop} {as : List α} {bs : List β} {b : β}
    (h : List.Forall₂ R as bs) (hb : b ∈ bs) : ∃ a ∈ as, R a b := by
  induction h with
  | nil => cases hb
  | cons hab _ ih =>
    obtain rfl | hb := List.mem_cons.1 hb
    · exact ⟨_, List.mem_cons_self, hab⟩
    · obtain ⟨a, ha, hab⟩ := ih hb
      exact ⟨a, List.mem_cons_of_mem _ ha, hab⟩

theorem exists_of_mem_left {α β : Type} {R : α → β → Prop} {as : List α} {bs : List β} {a : α}
    (h : List.Forall₂ R as bs) (ha : a ∈ as) : ∃ b ∈ bs, R a b :=
  exists_of_mem_right h.flip ha

theorem forall₂_comp {α β γ : Type} {R : α → β → Prop} {S : β → γ → Prop} {T : α → γ → Prop}
    {as : List α} {bs : List β} {cs : List γ} (hRS : ∀ a b c, R a b → S b c → T a c)
    (h : List.Forall₂ R as bs) (h' : List.Forall₂ S bs cs) : List.Forall₂ T as cs := by
  induction h generalizing cs with
  | nil =>
    cases h'
    exact .nil
  | cons hab _ ih =>
    cases h' with
    | cons hbc hrest => exact .cons (hRS _ _ _ hab hbc) (ih hrest)

/-- A part of the second of two related lists is related to a part of the first. -/
theorem exists_sublist_forall₂ {α β : Type} {R : α → β → Prop} {as : List α} {bs bs' : List β}
    (h : List.Forall₂ R as bs) (hsub : bs'.Sublist bs) :
    ∃ as', as'.Sublist as ∧ List.Forall₂ R as' bs' := by
  induction h generalizing bs' with
  | nil =>
    obtain rfl := List.sublist_nil.1 hsub
    exact ⟨[], .slnil, .nil⟩
  | cons hab _ ih =>
    cases hsub with
    | cons _ hsub =>
      obtain ⟨as', has', hrel⟩ := ih hsub
      exact ⟨as', has'.cons _, hrel⟩
    | cons_cons _ hsub =>
      obtain ⟨as', has', hrel⟩ := ih hsub
      exact ⟨_, has'.cons_cons _, .cons hab hrel⟩

/-! ### The object itself -/

namespace Tree

def Expr.isMine : Expr → Bool
  | .mine _ => true
  | _ => false

end Tree

namespace Typed

def Expr.isSelf : Expr → Bool
  | .self _ => true
  | _ => false

end Typed

/-- A function that a program declares: not the library's, and its parameters cannot change. -/
structure Func.Fixed (f : Func) : Prop where
  own : f.intrinsic = false
  params : ∀ v ∈ f.params, v.mutable = false

namespace Check

open Typed

variable {α β : Type} {s s' : State} {Γ : Context}

/-- A step of which only its being made matters. -/
theorem Ensures.next {m : Check α} {f : α → Check β} {R : β → State → Prop}
    (h : ∀ a s', Ensures (f a) s' R) : Ensures (m >>= f) s R :=
  .bind fun a s' _ => h a s'

/-! ### One statement -/

theorem Ensures.throw {P : α → State → Prop} (failure : CheckFailure) :
    Ensures (throw failure) s P := by
  intro a s' h
  cases h

theorem symbolValue_isSelf (name : String) (span : Span) (symbol : Symbol) :
    Ensures (symbolValue name span symbol) s fun e _ => e.isSelf = false := by
  cases symbol with
  | object ref => exact .fail _ _
  | var _ | param _ | func _ _ => exact .pure rfl

theorem application_isSelf (callee : Tree.Expr) (args : List Tree.Argument) (span : Span) :
    Ensures (expr (.call callee args span)) s fun e _ => e.isSelf = false := by
  by_cases hname : ∃ name nameSpan, callee = .identifier name nameSpan
  · obtain ⟨name, nameSpan, rfl⟩ := hname
    refine .next fun symbol _ => ?_
    split
    · exact .next fun _ _ => .next fun _ _ => .next fun _ _ => .pure rfl
    · refine .next fun c _ => ?_
      split
      · exact .next fun _ _ => .next fun _ _ => .pure rfl
      · exact .fail _ _
  · rw [expr]
    · refine .next fun _ _ => .next fun c _ => ?_
      split
      · exact .next fun _ _ => .next fun _ _ => .pure rfl
      · exact .fail _ _
    · exact fun name nameSpan h => hname ⟨name, nameSpan, h⟩

/-- Only `mine` stands for the object itself. -/
theorem expr_isSelf (t : Tree.Expr) : Ensures (expr t) s fun e _ => e.isSelf = t.isMine := by
  match t with
  | .integer text span =>
    simp only [expr, integer]
    split
    · exact .throw _
    · exact .next fun _ _ => .pure rfl
  | .float text span =>
    simp only [expr, float]
    split
    · exact .throw _
    · exact .pure rfl
  | .boolean .. | .string .. | .list [] _ => exact .pure rfl
  | .interpolation parts span => exact .next fun _ _ => .pure rfl
  | .identifier name span => exact .next fun symbol _ => symbolValue_isSelf name span symbol
  | .mine span =>
    refine .next fun flags _ => ?_
    split
    · exact .fail _ _
    · exact .pure rfl
  | .naught type span => exact .next fun _ _ => .pure rfl
  | .list (first :: rest) span =>
    refine .next fun _ _ => .next fun _ _ => .next fun values _ => ?_
    unfold list
    extract_lets
    split
    · exact .fail _ _
    · exact .pure rfl
  | .unary op operand span =>
    refine .next fun _ _ => .next fun value _ => ?_
    cases op with
    | some => exact .pure rfl
    | neg | not => exact .next fun _ _ => .pure rfl
  | .binary left op right span =>
    refine .next fun _ _ => .next fun l _ => .next fun _ _ => .next fun r _ => ?_
    cases op with
    | and | or | add | sub | mul | div | pow | lt | le | gt | ge =>
      exact .next fun _ _ => .next fun _ _ => .pure rfl
    | eq | ne => exact .next fun _ _ => .pure rfl
  | .ternary test consequent alternate span =>
    exact .next fun _ _ => .next fun _ _ => .next fun _ _ => .next fun _ _ => .next fun _ _ =>
      .next fun _ _ => .next fun _ _ => .pure rfl
  | .coalesce optional fallback span =>
    refine .next fun o _ => ?_
    split
    · exact .fail _ _
    · exact .next fun _ _ => .next fun _ _ => .next fun _ _ => .pure rfl
  | .call callee args span => exact application_isSelf callee args span
  | .index collection index span =>
    refine .next fun _ _ => .next fun c _ => .next fun _ _ => .next fun i _ => .next fun _ _ => ?_
    unfold subscript
    split
    · exact .pure rfl
    · exact .next fun _ _ => .pure rfl
  | .member object access name span =>
    refine .next fun _ _ => .next fun o _ => .next fun owner _ => .next fun info _ => ?_
    split
    · exact .fail _ _
    · exact .pure rfl

theorem params_fixed (ps : List Tree.Param) :
    Ensures (params ps) s fun vars _ => ∀ v ∈ vars, v.mutable = false := by
  induction ps generalizing s with
  | nil => exact .pure (by simp)
  | cons p rest ih =>
    refine .next fun t _ => .bind (.bind (fresh_ensures (.pure ?_)))
    exact .bind (ih.mono fun vars s' h => .pure (List.forall_mem_cons.2 ⟨rfl, h⟩))

theorem signature_fixed (id : Nat) (name : String) (ps : List Tree.Param)
    (result : Option Tree.TypeExpr) (isMethod : Bool) :
    Ensures (signature id name ps result isMethod) s fun f _ => f.Fixed ∧ f.name = name := by
  refine .bind ((params_fixed ps).mono fun vars s' hvars => ?_)
  cases result with
  | none => exact .bind (.pure (.pure ⟨⟨rfl, hvars⟩, rfl⟩))
  | some type => exact .next fun _ _ => .pure ⟨⟨rfl, hvars⟩, rfl⟩

theorem declareFunction_fixed (name : String) (ps : List Tree.Param)
    (result : Option Tree.TypeExpr) (span : Span) :
    Ensures (declareFunction name ps result span) s fun f _ => f.Fixed := by
  refine .next fun id _ => .next fun _ _ => ?_
  refine .bind ((signature_fixed id name ps result false).mono fun f s' hf => ?_)
  exact .next fun _ _ => .pure hf.1

theorem not_mem_of_member? {info : ObjectInfo} {name : String}
    (h : (info.member? name).isNone = true) : name ∉ info.methods.map (·.name) := by
  intro hname
  obtain ⟨f, hf, rfl⟩ := List.mem_map.1 hname
  unfold ObjectInfo.member? at h
  split at h
  · cases h
  · simp only [Option.isNone_map, Option.isNone_iff_eq_none, List.find?_eq_none] at h
    exact h f hf (beq_self_eq_true _)

/-- The methods of a guild are those that are written, by name and in order, and no two of them
have the same name. -/
theorem addMethods_fixed {s₀ : State} {ref : ObjectRef} {info : ObjectInfo}
    (h : Building s₀ Γ ref info s) (definitions : List Tree.FunctionDef)
    (hfixed : ∀ f ∈ info.methods, f.Fixed) (hnodup : (info.methods.map (·.name)).Nodup) :
    Ensures (addMethods ref definitions) s fun _ s' => ∃ methods,
      s'.objects.get? ref.id = some { info with methods } ∧ (∀ f ∈ methods, f.Fixed) ∧
      methods.map (·.name) = info.methods.map (·.name) ++ definitions.map (·.name) ∧
      (methods.map (·.name)).Nodup := by
  induction definitions generalizing s info with
  | nil => exact .pure ⟨info.methods, h.entry, hfixed, by simp, hnodup⟩
  | cons d rest ih =>
    obtain ⟨name, ps, result, body, span⟩ := d
    refine h.objectInfo.ensures fun known hknown => Yields.require.ensures fun _ hnew => ?_
    subst hknown
    refine .bind (fresh_ensures (.bind (((signature_ensures _ name ps result true).both
      (signature_fixed _ name ps result true)).mono ?_)))
    rintro f s₁ ⟨⟨hcounted, hf⟩, hfix, rfl⟩
    have hbuilt := ((h.advance (Nat.le_succ _)).counted hcounted).modify
      (fun o => { o with methods := o.methods ++ [f] }) (fun _ => rfl) fun o ho => ho.addMethod hf.2
    have hnames : ((known.methods ++ [f]).map (·.name)).Nodup := by
      rw [List.map_append, List.map_singleton]
      exact hnodup.append (List.nodup_singleton _)
        (List.disjoint_singleton.2 (not_mem_of_member? hnew))
    have hall : ∀ g ∈ known.methods ++ [f], g.Fixed :=
      List.forall_mem_append.2 ⟨hfixed, List.forall_mem_singleton.2 hfix⟩
    refine .bind (.modify ((ih hbuilt hall hnames).mono fun _ s₂ h₂ => ?_))
    obtain ⟨methods, hentry, hmethods, hmap, hdone⟩ := h₂
    refine ⟨methods, hentry, hmethods, ?_, hdone⟩
    rw [hmap]
    simp [Tree.FunctionDef.name]

/-- What a statement is known to become. Only declarations of variables that are said to change
declare such variables, and only what can change is a target. -/
inductive Makes : Tree.Stmt → Stmt → Prop
  | declare {mutable name type value span v e} (hv : v.mutable = mutable)
      (hown : v.intrinsic = false) :
    Makes (.declare mutable name type value span) (.declare mutable v e)
  | function {definition f body} (hf : f.Fixed) : Makes (.function definition) (.function f body)
  | matter {name definitions span ref fields parameters} :
    Makes (.matter name definitions span) (.object .matter ref fields parameters [])
  | guild {name definitions definition methodDefs span ref fields parameters methods}
      (hmethods : ∀ m ∈ methods, m.func.Fixed)
      (hnames : methods.map (·.func.name) = methodDefs.map (·.name))
      (hnodup : (methodDefs.map (·.name)).Nodup) :
    Makes (.guild name definitions definition methodDefs span)
      (.object .guild ref fields parameters methods)
  | print {value span e} : Makes (.print value span) (.print e)
  | assign {target value span e e'} (hmutable : isMutable e = true)
      (hself : e.isSelf = target.isMine) : Makes (.assign target value span) (.assign e e')
  | increment {target span e} (hmutable : isMutable e = true)
      (hself : e.isSelf = target.isMine) : Makes (.increment target span) (.increment e)
  | decrement {target span e} (hmutable : isMutable e = true)
      (hself : e.isSelf = target.isMine) : Makes (.decrement target span) (.decrement e)
  | return_ {value span e} : Makes (.return_ value span) (.return_ e)
  | shortReturn {value span} : Makes (.return_ value span) .shortReturn
  | branch {test body alternate span e b a} :
    Makes (.branch test body alternate span) (.branch e b a)
  | while_ {test body span e b} : Makes (.while_ test body span) (.while_ e b)
  | repeat_ {count body span e b} : Makes (.repeat_ count body span) (.repeat_ e b)
  | range {iterator low kind high body span v e e' b} (hv : v.mutable = false) :
    Makes (.range iterator low kind high body span) (.range v e kind e' b)
  | forEach {iterator collection body span v e b} (hv : v.mutable = false) :
    Makes (.forEach iterator collection body span) (.forEach v e b)
  | break_ {span} : Makes (.break_ span) .break_
  | call {callee args span outer e} : Makes (.call callee args span outer) (.call e)

/-- The methods of a guild have different names, those that are written. -/
theorem guild_makes (valid : Valid s Γ) (name : String) (definitions : List Tree.FieldDef)
    (definition : Option Tree.Forge) (methodDefs : List Tree.FunctionDef) (span : Span) :
    Ensures (stmt (.guild name definitions definition methodDefs span)) s fun st _ =>
      Makes (.guild name definitions definition methodDefs span) st := by
  refine .bind ((declareObject_ensures valid name (some []) span (by simp)).mono
    fun ref s₁ h₁ => ?_)
  refine .bind ((objectFields_ensures h₁ List.nodup_nil definitions span).mono
    fun fields s₂ h₂ => ?_)
  have hmethods := (addMethods_ensures h₂.1 methodDefs (by simp)).both
    (addMethods_fixed h₂.1 methodDefs (by simp) List.nodup_nil)
  refine .bind (hmethods.mono fun _ s₃ h₃ => ?_)
  obtain ⟨⟨funcs, hbuilt, hlength, hsigned⟩, funcs', hentry, hfixed, hnames, hnodup⟩ := h₃
  -- Both speak of the methods in the entry of the guild, which is the same one.
  obtain rfl : funcs = funcs' := by
    rw [hbuilt.entry] at hentry
    cases hentry
    rfl
  refine .bind ((initialFields_ensures hbuilt rfl h₂.2 definition span).mono
    fun inits s₄ h₄ => ?_)
  obtain ⟨parameters, hbuilt, -, -⟩ := h₄
  refine hbuilt.objectInfo.ensures fun known hknown => ?_
  subst hknown
  refine .bind ((methods_sound hbuilt.valid ref funcs methodDefs hsigned).mono
    fun ms s₅ h₅ => .pure ?_)
  have hfuncs : ms.map Method.func = funcs := h₅.1 (by simpa using hlength)
  have hnames : funcs.map (·.name) = methodDefs.map (·.name) := hnames
  refine .guild (fun m hm => ?_) ?_ (hnames ▸ hnodup)
  · exact hfixed _ (hfuncs ▸ List.mem_map_of_mem hm)
  · rw [← hnames, ← hfuncs, List.map_map]
    rfl

/-- Whatever its kind, a statement becomes what is known of it. -/
theorem stmt_makes (valid : Valid s Γ) (t : Tree.Stmt) :
    Ensures (stmt t) s fun st _ => Makes t st := by
  cases t with
  | declare mutable name type value span =>
    refine .next fun _ _ => .next fun _ _ => .next fun _ _ => ?_
    exact .bind (.bind (fresh_ensures (.pure (.next fun _ _ => .pure (.declare rfl rfl)))))
  | function definition =>
    obtain ⟨name, ps, result, body, span⟩ := definition
    refine .bind ((declareFunction_fixed name ps result span).mono fun f s₁ hf => ?_)
    exact .next fun _ _ => .next fun _ _ => .pure (.function hf)
  | matter name definitions span => exact .next fun _ _ => .next fun _ _ => .pure .matter
  | guild name definitions definition methodDefs span =>
    exact guild_makes valid name definitions definition methodDefs span
  | print value span => exact .next fun _ _ => .next fun _ _ => .pure .print
  | assign target value span =>
    refine .bind ((expr_isSelf target).mono fun t _ hself => ?_)
    exact .bind (.require fun hmutable => .next fun _ _ => .pure (.assign hmutable hself))
  | increment target span =>
    refine .bind ((expr_isSelf target).mono fun t _ hself => .next fun _ _ => ?_)
    exact .bind (.require fun hmutable => .pure (.increment hmutable hself))
  | decrement target span =>
    refine .bind ((expr_isSelf target).mono fun t _ hself => .next fun _ _ => ?_)
    exact .bind (.require fun hmutable => .pure (.decrement hmutable hself))
  | return_ value span =>
    refine .next fun flags _ => ?_
    split
    · exact .fail _ _
    · cases value with
      | none => exact .next fun _ _ => .pure .shortReturn
      | some e => exact .next fun _ _ => .next fun _ _ => .pure .return_
  | branch test body alt span =>
    exact .next fun _ _ => .next fun _ _ => .next fun _ _ => .next fun _ _ => .pure .branch
  | while_ test body span =>
    exact .next fun _ _ => .next fun _ _ => .next fun _ _ => .pure .while_
  | repeat_ count body span =>
    exact .next fun _ _ => .next fun _ _ => .next fun _ _ => .pure .repeat_
  | range iterator low kind high body span =>
    refine .next fun _ _ => .next fun _ _ => .next fun _ _ => .next fun _ _ => ?_
    exact .bind (.bind (fresh_ensures (.pure (.next fun _ _ => .pure (.range rfl)))))
  | forEach iterator collection body span =>
    refine .next fun c _ => ?_
    split
    · exact .fail _ _
    · exact .bind (.bind (fresh_ensures (.pure (.next fun _ _ => .pure (.forEach rfl)))))
  | break_ span => exact .next fun _ _ => .next fun _ _ => .pure .break_
  | call callee args span outer => exact .next fun _ _ => .pure .call

theorem Becomes.makes {t : Tree.Stmt} {st : Stmt} (h : Becomes t st) : Makes t st := by
  obtain ⟨s, Γ, s', valid, hrun⟩ := h
  exact stmt_makes valid t st s' hrun

theorem Becomes.wellTyped {t : Tree.Stmt} {st : Stmt} (h : Becomes t st) :
    ∃ T Γ, st.WellTyped T Γ := by
  obtain ⟨s, Γ, s', valid, hrun⟩ := h
  exact ⟨s'.objects, Γ, ((stmt_sound valid t st s' hrun).holds _ fun _ _ => rfl).1⟩

end Check

end Dragon
