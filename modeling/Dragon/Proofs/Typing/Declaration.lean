import Dragon.Proofs.Typing.State
import Mathlib.Data.List.Nodup

/-!
# What declarations leave behind

A function is in scope before its signature is resolved, but by the time that any expression is
checked the whole signature stands at its name. An object is declared first and completed later;
until its statement ends, only its own entry of the table changes.
-/
namespace Dragon

open Typed

namespace Func

variable {f : Func}

theorem Signed.aligned_params (h : f.Signed) (ht : f.type.Aligned) :
    ∀ symbol ∈ f.params.map Symbol.var, symbol.Proper := by
  rw [h] at ht
  have hall := Ty.allAligned_iff.1 ht.2.1
  intro symbol hsymbol
  obtain ⟨v, hv, rfl⟩ := List.mem_map.1 hsymbol
  exact hall v.type (List.mem_map_of_mem hv)

theorem Signed.aligned_result (h : f.Signed) (ht : f.type.Aligned) : f.result.Aligned := by
  rw [h] at ht
  exact ht.2.2

end Func

namespace ObjectInfo.Proper

variable {o : ObjectInfo}

theorem addField (h : o.Proper) {f : Field} (hf : f.type.Aligned) :
    { o with fields := o.fields ++ [f] }.Proper :=
  { h with fields := by simpa [or_imp, forall_and] using ⟨h.fields, hf⟩ }

theorem addMethod (h : o.Proper) {f : Func} (hf : f.type.Aligned) :
    { o with methods := o.methods ++ [f] }.Proper :=
  { h with methods := by simpa [or_imp, forall_and] using ⟨h.methods, hf⟩ }

theorem setParameters (h : o.Proper) {ps : List ForgeParam} (hps : ∀ p ∈ ps, p.type.Aligned) :
    { o with parameters := some ps }.Proper :=
  { h with parameters := by simpa using hps }

end ObjectInfo.Proper

namespace Check

variable {s s' s₀ : State} {Γ : Context}

/-! ### Functions -/

/-- Only numbers were taken. -/
def Counted (s s' : State) : Prop := ∃ n, s.next ≤ n ∧ s' = { s with next := n }

theorem params_ensures (ps : List Tree.Param) :
    Ensures (params ps) s fun vars s' => Counted s s' ∧ ∀ v ∈ vars, v.type.Aligned := by
  induction ps generalizing s with
  | nil => exact .pure ⟨⟨s.next, Nat.le_refl _, rfl⟩, by simp⟩
  | cons p rest ih =>
    refine (resolve_aligned p.type).ensures fun t ht => .bind (.bind (fresh_ensures (.pure ?_)))
    refine .bind (ih.mono fun vars s' h => .pure ?_)
    obtain ⟨⟨n, hn, rfl⟩, hvars⟩ := h
    exact ⟨⟨n, Nat.le_of_succ_le hn, rfl⟩, by simpa using ⟨ht, hvars⟩⟩

/-- A signature agrees with its parameters, and takes nothing but numbers. -/
theorem signature_ensures (id : Nat) (name : String) (ps : List Tree.Param)
    (result : Option Tree.TypeExpr) (isMethod : Bool) :
    Ensures (signature id name ps result isMethod) s fun f s' =>
      Counted s s' ∧ f.Signed ∧ f.type.Aligned := by
  refine .bind ((params_ensures ps).mono fun vars s' h => ?_)
  obtain ⟨hcounted, hvars⟩ := h
  extract_lets finish
  have hfinish (t : Ty) (ht : t.Aligned) : Ensures (finish t) s' fun f s' =>
      Counted s s' ∧ f.Signed ∧ f.type.Aligned := by
    refine .pure ⟨hcounted, rfl, .inr (by simp), ?_, ht⟩
    exact Ty.allAligned_iff.2 (by simpa using hvars)
  cases result with
  | none => exact .bind (.pure (hfinish _ trivial))
  | some type => exact (resolve_aligned type).ensures hfinish

/-- A function is in scope with its signature once it is declared. -/
theorem declareFunction_ensures (valid : Valid s Γ) (name : String) (ps : List Tree.Param)
    (result : Option Tree.TypeExpr) (span : Span) :
    Ensures (declareFunction name ps result span) s fun f s' =>
      Follows s s' ∧ Valid s' (Γ.bind [.func f true]) ∧ f.Signed ∧ f.type.Aligned := by
  refine .bind (fresh_ensures (.bind (declare_ensures fun place events => ?_)))
  refine .bind ((signature_ensures _ name ps result false).mono fun f s' h => ?_)
  obtain ⟨⟨n, hn, rfl⟩, hsigned, haligned⟩ := h
  have hn : s.next ≤ n := Nat.le_of_succ_le hn
  refine .bind (update_ensures (.pure ⟨⟨hn, fun _ _ => rfl, by simp⟩, ?_, hsigned, haligned⟩))
  have hbound : Valid s (Γ.bind [.func f true]) :=
    valid.bind (by simpa using ⟨rfl, haligned⟩) (by simp)
  -- The incomplete symbol is gone from the scope, so what is left of it is in the context.
  exact {
    hbound.advance hn with
    seen := Scope.Within.replace_push hbound.seen List.mem_cons_self
    flags := by simpa using hbound.flags }

theorem declareParams_ensures (valid : Valid s Γ) (vars : List Var) (ps : List Tree.Param)
    (hvars : ∀ v ∈ vars, .var v ∈ Γ.symbols) :
    Ensures (declareParams vars ps) s fun _ s' => Follows s s' ∧ Valid s' Γ := by
  induction vars generalizing s ps with
  | nil => exact .pure ⟨.refl s, valid⟩
  | cons v vars ih =>
    cases ps with
    | nil => exact .pure ⟨.refl s, valid⟩
    | cons p ps =>
      refine .bind (declare_ensures fun place events => ?_)
      have hpush := valid.push (b := ⟨v.name, .var v, place⟩) (hvars v List.mem_cons_self) events
      refine (ih hpush ps fun v hv => hvars v (List.mem_cons_of_mem _ hv)).mono fun _ s' h => ?_
      exact ⟨((Follows.refl s).push _ _).trans h.1, h.2⟩

/-! ### Objects -/

/-- An object whose statement began in one state and that has come to some entry in another. -/
structure Building (s₀ : State) (Γ : Context) (ref : ObjectRef) (info : ObjectInfo) (s : State) :
    Prop where
  valid : Valid s Γ
  follows : Follows s₀ s
  number : ref.id = s₀.next
  entry : s.objects.get? ref.id = some info

namespace Building

variable {ref : ObjectRef} {info : ObjectInfo}

theorem advance (h : Building s₀ Γ ref info s) {n : Nat} (hn : s.next ≤ n) :
    Building s₀ Γ ref info { s with next := n } :=
  ⟨h.valid.advance hn, h.follows.advance hn, h.number, h.entry⟩

theorem counted (h : Building s₀ Γ ref info s) (hs' : Counted s s') :
    Building s₀ Γ ref info s' := by
  obtain ⟨n, hn, rfl⟩ := hs'
  exact h.advance hn

/-- Changing the entry of an object that is being built. -/
theorem modify (h : Building s₀ Γ ref info s) (change : ObjectInfo → ObjectInfo)
    (href : ∀ o, (change o).ref = o.ref) (hproper : ∀ o, o.Proper → (change o).Proper) :
    Building s₀ Γ ref (change info) { s with objects := s.objects.modify ref.id change } where
  valid := {
    h.valid with
    known := by
      intro o ho
      obtain hold | ⟨o', hold, rfl⟩ := Objects.mem_modify ho
      · exact h.valid.known o hold
      · rw [href]
        exact h.valid.known o' hold
    declared := by
      intro ref' href'
      obtain ⟨o, ho⟩ := h.valid.declared ref' href'
      exact ⟨_, by rw [Objects.get?_modify href, ho]; rfl⟩
    objects := by
      intro o ho
      obtain hold | ⟨o', hold, rfl⟩ := Objects.mem_modify ho
      · exact h.valid.objects o hold
      · exact hproper o' (h.valid.objects o' hold) }
  follows := {
    h.follows with
    entries := by
      intro id hid
      rw [Objects.get?_modify_of_ne href (by rw [h.number]; omega), h.follows.entries id hid] }
  number := h.number
  entry := Objects.get?_modify_self href h.entry

theorem objectInfo (h : Building s₀ Γ ref info s) : Yields (objectInfo ref) s (· = info) :=
  (Yields.objectInfo ref).mono fun known hknown => by rw [hknown, h.entry]; rfl

/-- Inside a frame of its own, the statement began in a frame of its own too. -/
theorem enter (h : Building s₀ Γ ref info s) (change : Flags → Flags)
    (hfunction : ∀ f, (change Γ.flags).function = some f → f.result.Aligned) :
    Building { s₀ with scope := s.scope.child change } (Γ.within (change Γ.flags)) ref info
      (s.enter change) :=
  ⟨h.valid.enter change hfunction, ⟨h.follows.next, h.follows.entries, rfl⟩, h.number, h.entry⟩

/-- Behind that frame, the entry is what it has become there. -/
theorem leave (h : Building s₀ Γ ref info s) {change : Flags → Flags} {Γ₂ : Context}
    {info₂ : ObjectInfo} {s₂ : State}
    (inner : Building { s₀ with scope := s.scope.child change } Γ₂ ref info₂ s₂)
    (hsymbols : Γ.symbols ⊆ Γ₂.symbols) :
    Building s₀ Γ ref info₂ { s₂ with scope := s₂.scope.tail } := by
  have htail : s₂.scope.tail = s.scope := inner.follows.around
  rw [htail]
  refine ⟨h.valid.leave inner.valid fun r hr => inner.valid.declared r (hsymbols hr), ?_, ?_, ?_⟩
  · exact ⟨inner.follows.next, inner.follows.entries, h.follows.around⟩
  · exact h.number
  · exact inner.entry

end Building

/-- A new object that takes the next number. -/
theorem Valid.addObject (valid : Valid s Γ) {info : ObjectInfo} (hid : info.ref.id = s.next)
    (hproper : info.Proper) :
    Building s (Γ.bind [.object info.ref]) info.ref info
      { s with next := s.next + 1, objects := s.objects ++ [info] } := by
  have hothers : ∀ id < s.next, Objects.get? (s.objects ++ [info]) id = s.objects.get? id :=
    fun id hlt => Objects.get?_append_of_ne (by omega)
  have hself : Objects.get? (s.objects ++ [info]) info.ref.id = some info :=
    Objects.get?_append_self fun o ho => by
      have := valid.known o ho
      omega
  have hadded : Valid { s with next := s.next + 1, objects := s.objects ++ [info] } Γ := {
    valid with
    known := by
      intro o ho
      obtain hold | rfl := List.mem_append.1 ho |>.imp_right List.mem_singleton.1
      · exact Nat.lt_succ_of_lt (valid.known o hold)
      · exact hid ▸ Nat.lt_succ_self _
    declared := by
      intro ref href
      obtain ⟨o, ho⟩ := valid.declared ref href
      exact ⟨o, (hothers ref.id (valid.lt_next ho)).trans ho⟩
    objects := by
      intro o ho
      obtain hold | rfl := List.mem_append.1 ho |>.imp_right List.mem_singleton.1
      · exact valid.objects o hold
      · exact hproper }
  refine ⟨hadded.bind ?_ ?_, ⟨Nat.le_succ _, hothers, rfl⟩, hid, hself⟩
  · intro symbol hsymbol
    obtain rfl := List.mem_singleton.1 hsymbol
    trivial
  · intro ref href
    obtain rfl : ref = info.ref := by simpa using href
    exact ⟨info, hself⟩

/-- An object starts with an entry without members. -/
theorem declareObject_ensures (valid : Valid s Γ) (name : String)
    (parameters : Option (List ForgeParam)) (span : Span)
    (hparameters : ∀ ps, parameters = some ps → ps = []) :
    Ensures (declareObject name parameters span) s fun ref s' =>
      Building s (Γ.bind [.object ref]) ref ⟨ref, [], parameters, []⟩ s' := by
  refine .bind (fresh_ensures (.bind (.modify (.bind (declare_ensures fun place events => ?_)))))
  have hproper : (ObjectInfo.mk ⟨s.next, name⟩ [] parameters []).Proper := by
    refine ⟨by simp, by simp, fun ps hps => ?_⟩
    rw [hparameters ps hps]
    simp
  have h := valid.addObject rfl hproper
  exact .pure ⟨h.valid.push List.mem_cons_self events, h.follows.push _ _, rfl, h.entry⟩

/-! ### Fields and methods -/

/-- Fields are added to the entry under different names. -/
theorem addFields_ensures {ref : ObjectRef} {info : ObjectInfo} (h : Building s₀ Γ ref info s)
    (hnames : (info.fields.map (·.name)).Nodup) (definitions : List Tree.FieldDef) :
    Ensures (addFields ref definitions) s fun _ s' => ∃ fields,
      Building s₀ Γ ref { info with fields } s' ∧ (fields.map (·.name)).Nodup := by
  induction definitions generalizing s info with
  | nil => exact .pure ⟨info.fields, h, hnames⟩
  | cons f rest ih =>
    refine h.objectInfo.ensures fun known hknown => ?_
    subst hknown
    refine Yields.require.ensures fun _ hnew => ?_
    refine (resolve_aligned f.type).ensures fun t ht => Yields.require.ensures fun _ _ => ?_
    have hbuilt := h.modify
      (fun o => { o with fields := o.fields ++ [⟨ref.id, o.fields.length, f.name, t⟩] })
      (fun _ => rfl) fun o ho => ho.addField ht
    have hrest := ih hbuilt (by simp_all [List.nodup_append])
    exact .bind (.modify hrest)

theorem objectFields_ensures {ref : ObjectRef} {info : ObjectInfo}
    (h : Building s₀ Γ ref info s) (hnames : (info.fields.map (·.name)).Nodup)
    (definitions : List Tree.FieldDef) (span : Span) :
    Ensures (objectFields ref definitions span) s fun fields s' =>
      Building s₀ Γ ref { info with fields } s' ∧ (fields.map (·.name)).Nodup := by
  refine .bind ((addFields_ensures h hnames definitions).mono fun _ s₁ h₁ => ?_)
  obtain ⟨fields, hbuilt, hnodup⟩ := h₁
  refine .bind (.get (Yields.require.ensures fun _ _ => hbuilt.objectInfo.ensures fun o ho => ?_))
  subst ho
  exact .pure ⟨hbuilt, hnodup⟩

/-- Methods are added to the entry with their signatures. -/
theorem addMethods_ensures {ref : ObjectRef} {info : ObjectInfo} (h : Building s₀ Γ ref info s)
    (definitions : List Tree.FunctionDef)
    (hsigned : ∀ f ∈ info.methods, f.Signed ∧ f.type.Aligned) :
    Ensures (addMethods ref definitions) s fun _ s' => ∃ methods,
      Building s₀ Γ ref { info with methods } s' ∧
      methods.length = info.methods.length + definitions.length ∧
      ∀ f ∈ methods, f.Signed ∧ f.type.Aligned := by
  induction definitions generalizing s info with
  | nil => exact .pure ⟨info.methods, h, rfl, hsigned⟩
  | cons d rest ih =>
    obtain ⟨name, ps, result, body, span⟩ := d
    refine h.objectInfo.ensures fun known _ => Yields.require.ensures fun _ _ => ?_
    refine .bind (fresh_ensures (.bind ((signature_ensures _ name ps result true).mono ?_)))
    rintro f s₁ ⟨hcounted, hf⟩
    have hbuilt := ((h.advance (Nat.le_succ _)).counted hcounted).modify
      (fun o => { o with methods := o.methods ++ [f] }) (fun _ => rfl) fun o ho => ho.addMethod hf.2
    refine .bind (.modify ((ih hbuilt fun m hm => ?_).mono ?_))
    · obtain hm | rfl := List.mem_append.1 hm |>.imp_right List.mem_singleton.1
      · exact hsigned m hm
      · exact hf
    · rintro _ s₂ ⟨methods, hdone, hlen, hall⟩
      refine ⟨methods, hdone, ?_, hall⟩
      simp only [List.length_append, List.length_cons, List.length_nil] at hlen ⊢
      omega

/-! ### Forges -/

theorem forgeParams_ensures {ref : ObjectRef} {info : ObjectInfo} (h : Building s₀ Γ ref info s)
    (ps : List Tree.Param) :
    Ensures (forgeParams ps) s fun params s' =>
      Building s₀ (Γ.bind (params.map .param)) ref info s' ∧ ∀ p ∈ params, p.type.Aligned := by
  induction ps generalizing s Γ with
  | nil => exact .pure ⟨h, by simp⟩
  | cons p rest ih =>
    refine .bind (fresh_ensures ((resolve_aligned p.type).ensures fun t ht => ?_))
    refine .bind (declare_ensures fun place events => ?_)
    let param : ForgeParam := ⟨s.next, p.name, t⟩
    have hparam : (Symbol.param param).Proper := ht
    have hnext := h.advance (Nat.le_succ _)
    have hbound : Building s₀ (Γ.bind [.param param]) ref info
        { s with
          next := s.next + 1
          scope := s.scope.push ⟨p.name, .param param, place⟩
          events } := {
      valid := (hnext.valid.bind (List.forall_mem_singleton.2 hparam) (by simp)).push
        List.mem_cons_self events
      follows := hnext.follows.push _ events
      number := h.number
      entry := h.entry }
    refine .bind ((ih hbound).mono fun params s' h' => .pure ⟨?_, ?_⟩)
    · refine { h'.1 with valid := h'.1.valid.congr rfl fun symbol => ?_ }
      simpa [Context.bind, param] using or_left_comm
    · simpa using ⟨ht, h'.2⟩

/-- A value that a forge gives to a field of an object. -/
def Initial (s : State) (Γ : Context) (info : ObjectInfo) (value : String × Expr) : Prop :=
  ∃ f ∈ info.fields, f.name = value.1 ∧ Sound s Γ value.2 ∧ value.2.Suits f.type

theorem valueFor_yields (valid : Valid s Γ) {t : Ty} (ht : t.Aligned) (e : Tree.Expr) :
    Yields (valueFor t e) s fun v => Sound s Γ v ∧ v.Suits t :=
  (expr_sound valid e).value _ fun _ hv => coerce_yields _ hv.1 hv.2 ht

/-- A target is a field of the object. -/
theorem forgeTarget_yields {ref : ObjectRef} {info : ObjectInfo} (h : Building s₀ Γ ref info s)
    (t : Tree.Stmt) :
    Yields (forgeTarget ref t) s fun target => target.1 ∈ info.fields := by
  unfold forgeTarget
  split
  next =>
    refine h.objectInfo.bind fun known hknown => ?_
    split
    next f hf =>
      rw [hknown] at hf
      exact .pure (has_of_member? hf)
    next => exact .fail _ _
  next => exact .fail _ _

/-- All values of a forge are for fields and can be stored there. -/
theorem forgeBody_yields {ref : ObjectRef} {info : ObjectInfo} (h : Building s₀ Γ ref info s)
    (ts : List Tree.Stmt) (assigned : List (String × Expr))
    (hassigned : ∀ value ∈ assigned, Initial s Γ info value) :
    Yields (forgeBody ref assigned ts) s fun values =>
      ∀ value ∈ values, Initial s Γ info value := by
  induction ts generalizing assigned with
  | nil => exact .pure hassigned
  | cons t rest ih =>
    refine (forgeTarget_yields h t).bind fun target htarget => Yields.require.bind fun _ _ => ?_
    have haligned := (h.valid.objects info (mem_of_get? h.entry)).fields _ htarget
    refine (valueFor_yields h.valid haligned target.2).bind fun v hv => ih _ fun value hvalue => ?_
    obtain hold | rfl := List.mem_append.1 hvalue |>.imp_right List.mem_singleton.1
    · exact hassigned value hold
    · exact ⟨target.1, htarget, rfl, hv⟩

/-- The entry of a guild has the parameters of its forge in the end. -/
theorem forge_ensures {ref : ObjectRef} {info : ObjectInfo} (h : Building s₀ Γ ref info s)
    (hparameters : info.parameters = some []) (definition : Option Tree.Forge) :
    Ensures (forge ref definition) s fun values s' => ∃ parameters,
      Building s₀ Γ ref { info with parameters := some parameters } s' ∧
      ∀ value ∈ values, Initial s' (forgeContext Γ ref (some parameters)) info value := by
  match definition with
  | none => exact .pure ⟨[], hparameters ▸ h, by simp⟩
  | some (.mk ps body span) =>
    have hinner := h.enter (fun _ => ⟨false, none, some ref⟩) (by simp)
    refine nested_ensures (.bind ((forgeParams_ensures hinner ps).mono fun params s₁ h₁ => ?_))
    obtain ⟨hparams, haligned⟩ := h₁
    have hset := hparams.modify (fun o => { o with parameters := some params }) (fun _ => rfl)
      fun o ho => ho.setParameters haligned
    have hbody := forgeBody_yields hset body [] (by simp)
    refine .bind (.modify (Ensures.mono hbody fun values s₂ h₂ => ?_))
    obtain ⟨rfl, hvalues⟩ := h₂
    exact ⟨params, h.leave hset (List.subset_append_right _ _), hvalues⟩

/-- Every field of an accepted guild has a well typed value. -/
theorem initialFields_ensures {ref : ObjectRef} {info : ObjectInfo} (h : Building s₀ Γ ref info s)
    (hparameters : info.parameters = some []) (hnames : (info.fields.map (·.name)).Nodup)
    (definition : Option Tree.Forge) (span : Span) :
    Ensures (initialFields ref info.fields definition span) s fun inits s' => ∃ parameters,
      Building s₀ Γ ref { info with parameters := some parameters } s' ∧
      inits.map (·.field) = info.fields ∧
      ∀ T, Extends s' T → ∀ f ∈ inits,
        f.WellTyped T (forgeContext Γ ref (some parameters)) .guild := by
  refine .bind ((forge_ensures h hparameters definition).mono fun values s' h' => ?_)
  obtain ⟨parameters, hbuilt, hvalues⟩ := h'
  refine Yields.require.ensures fun _ hmissing => .pure ⟨parameters, hbuilt, ?_, ?_⟩
  · rw [List.map_map]
    exact List.map_id _
  intro T hT init hinit
  obtain ⟨f, hf, rfl⟩ := List.mem_map.1 hinit
  cases hlookup : values.lookup f.name with
  | none =>
    have hall : values.all (·.1 != f.name) = true := by
      refine List.all_eq_true.2 fun p hp => ?_
      rw [bne_comm]
      exact List.lookup_eq_none_iff.1 hlookup p hp
    have hmem : f ∈ info.fields.filter fun f => values.all (·.1 != f.name) :=
      List.mem_filter.2 ⟨hf, hall⟩
    rw [List.isEmpty_iff.1 hmissing] at hmem
    cases hmem
  | some e =>
    obtain ⟨l, l', rfl, -⟩ := List.lookup_eq_some_iff.1 hlookup
    obtain ⟨f', hf', hname, hsound, hsuits⟩ := hvalues (f.name, e) (by simp)
    obtain rfl := List.inj_on_of_nodup_map hnames hf' hf hname
    exact ⟨hsound.2 T hT, hsuits⟩

end Check

end Dragon
