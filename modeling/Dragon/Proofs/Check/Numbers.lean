import Dragon.Proofs.Check.Expr
import Dragon.Proofs.Check.Names
import Dragon.Proofs.Check.Steps
import Dragon.Proofs.Script.Entities
import Mathlib.Data.List.Nodup
import Mathlib.Data.List.Perm.Subperm
import Mathlib.Order.Nat

/-!
# Names and numbers of symbols

What a checked program declares, and what its objects have as members, is named as in the syntax
tree. Whatever a check declares takes the next number, and the parameters of methods and forges keep
theirs in the table of objects until the bodies are checked. So all entities of a checked program
are different, wherever they stand in it and whatever they are called.
-/
namespace Dragon

open Script (Entity)

/-- Different entities with numbers from `low` on and below `high`. -/
structure Numbered (low high : Nat) (entities : List Entity) : Prop where
  le : low ≤ high
  lower : ∀ x ∈ entities, low ≤ x.number
  upper : ∀ x ∈ entities, x.number < high
  nodup : entities.Nodup

namespace Numbered

variable {a b c : Nat} {xs ys : List Entity}

theorem nil (h : a ≤ b) : Numbered a b [] := ⟨h, by simp, by simp, List.nodup_nil⟩

theorem symbol (n : Nat) : Numbered n (n + 1) [.symbol n] :=
  ⟨Nat.le_succ n, by simp [Entity.number], by simp [Entity.number], List.nodup_singleton _⟩

theorem append (h : Numbered a b xs) (h' : Numbered b c ys) : Numbered a c (xs ++ ys) where
  le := Nat.le_trans h.le h'.le
  lower := by
    intro x hx
    obtain hx | hx := List.mem_append.1 hx
    · exact h.lower x hx
    · exact Nat.le_trans h.le (h'.lower x hx)
  upper := by
    intro x hx
    obtain hx | hx := List.mem_append.1 hx
    · exact Nat.lt_of_lt_of_le (h.upper x hx) h'.le
    · exact h'.upper x hx
  nodup := by
    refine List.nodup_append.2 ⟨h.nodup, h'.nodup, fun x hx y hy hxy => ?_⟩
    have hbelow := h.upper x hx
    have habove := h'.lower y hy
    rw [hxy] at hbelow
    omega

theorem subperm (h : Numbered a b xs) (hys : ys.Subperm xs) : Numbered a b ys where
  le := h.le
  lower x hx := h.lower x (hys.subset hx)
  upper x hx := h.upper x (hys.subset hx)
  nodup := by
    obtain ⟨zs, hperm, hsub⟩ := hys
    exact hperm.nodup_iff.1 (h.nodup.sublist hsub)

theorem mono {a' b' : Nat} (h : Numbered a b xs) (ha : a' ≤ a) (hb : b ≤ b') :
    Numbered a' b' xs where
  le := Nat.le_trans ha (Nat.le_trans h.le hb)
  lower x hx := Nat.le_trans ha (h.lower x hx)
  upper x hx := Nat.lt_of_lt_of_le (h.upper x hx) hb
  nodup := h.nodup

end Numbered

/-- The parameters of some functions. -/
def paramEntities (fs : List Func) : List Entity := fs.flatMap fun f => f.params.map .ofVar

/-! ### Tables -/

namespace ObjectInfo

/-- What the methods and the forge of an object take. -/
def taken (o : ObjectInfo) : List Entity :=
  paramEntities o.methods ++ (o.parameters.getD []).map .ofParam

/-- Fields are numbered by their places, and all parameters were declared after the object. -/
structure Numbered (o : ObjectInfo) (next : Nat) : Prop where
  owner : ∀ f ∈ o.fields, f.owner = o.ref.id
  indices : o.fields.map (·.index) = List.range o.fields.length
  taken : Dragon.Numbered (o.ref.id + 1) next o.taken

namespace Numbered

variable {o : ObjectInfo} {n n' : Nat}

theorem later (h : o.Numbered n) (hn : n ≤ n') : o.Numbered n' :=
  { h with taken := h.taken.mono (Nat.le_refl _) hn }

/-- An object and its fields as they are numbered. -/
theorem fields (h : o.Numbered n) :
    Dragon.Numbered o.ref.id (o.ref.id + 1) (.symbol o.ref.id :: o.fields.map .ofField) := by
  have hnumber : ∀ x ∈ Entity.symbol o.ref.id :: o.fields.map .ofField, x.number = o.ref.id := by
    intro x hx
    obtain rfl | hx := List.mem_cons.1 hx
    · rfl
    · obtain ⟨f, hf, rfl⟩ := List.mem_map.1 hx
      exact h.owner f hf
  have hindices : ((o.fields.map Entity.ofField).map Entity.place).Nodup := by
    rw [List.map_map]
    exact h.indices ▸ List.nodup_range
  refine ⟨Nat.le_succ _, fun x hx => (hnumber x hx).ge, fun x hx => ?_, ?_⟩
  · rw [hnumber x hx]
    exact Nat.lt_succ_self _
  · refine List.nodup_cons.2 ⟨?_, List.Nodup.of_map _ hindices⟩
    simp [Entity.ofField]

theorem addField (h : o.Numbered n) (name : String) (type : Ty) :
    { o with
      fields := o.fields ++ [Field.mk o.ref.id o.fields.length name type] }.Numbered n :=
  { h with
    owner := by simpa [or_imp, forall_and] using h.owner
    indices := by simp [h.indices, List.range_succ] }

theorem addMethod (h : o.Numbered n) {f : Func} {low : Nat} (hlow : n ≤ low)
    (hparams : Dragon.Numbered low n' (f.params.map .ofVar)) :
    { o with methods := o.methods ++ [f] }.Numbered n' := by
  refine { h with taken := ?_ }
  have hall := h.taken.append (hparams.mono hlow (Nat.le_refl _))
  refine hall.subperm (List.Perm.subperm ?_)
  simp only [ObjectInfo.taken, paramEntities, List.flatMap_append, List.flatMap_singleton,
    List.append_assoc]
  exact List.perm_append_comm.append_left _

theorem setParameters (h : o.Numbered n) {ps : List ForgeParam}
    (hparams : Dragon.Numbered n n' (ps.map .ofParam)) :
    { o with parameters := some ps }.Numbered n' := by
  have hmethods := h.taken.subperm (List.sublist_append_left _ _).subperm
  exact { h with taken := hmethods.append hparams }

end Numbered

end ObjectInfo

namespace Check

variable {W : String → Prop} {s s' : State}

/-! ### Functions -/

/-- Parameters are numbered as they are declared. -/
theorem params_recorded {ps : List Tree.Param} (h : ∀ p ∈ ps, W p.name) :
    Ensures (params ps) s fun vars s' => s'.objects = s.objects ∧ (∀ v ∈ vars, v.Own W) ∧
      Numbered s.next s'.next (vars.map .ofVar) := by
  induction ps generalizing s with
  | nil => exact .pure ⟨rfl, by simp, .nil (Nat.le_refl _)⟩
  | cons p rest ih =>
    obtain ⟨hp, hrest⟩ := List.forall_mem_cons.1 h
    refine (resolve_keeps p.type s).ensures fun t _ => .bind (.bind (fresh_ensures (.pure ?_)))
    refine .bind ((ih hrest).mono fun vars s' h' => .pure ⟨h'.1, ?_, ?_⟩)
    · exact List.forall_mem_cons.2 ⟨⟨hp, rfl⟩, h'.2.1⟩
    · exact (Numbered.symbol s.next).append h'.2.2

/-- A signature has the number of its function, and parameters with later ones. -/
theorem signature_recorded (id : Nat) {name : String} (hname : W name) {ps : List Tree.Param}
    (h : ∀ p ∈ ps, W p.name) (result : Option Tree.TypeExpr) (isMethod : Bool) :
    Ensures (signature id name ps result isMethod) s fun f s' =>
      s'.objects = s.objects ∧ f.Own W ∧ f.id = id ∧
      Numbered s.next s'.next (f.params.map .ofVar) := by
  refine .bind ((params_recorded h).mono fun vars s' h' => ?_)
  obtain ⟨hobjects, hvars, hnumbered⟩ := h'
  have hf (type : Ty) : (Func.mk id name vars type isMethod false).Own W := ⟨hname, rfl, hvars⟩
  cases result with
  | none => exact .bind (.pure (.pure ⟨hobjects, hf _, rfl, hnumbered⟩))
  | some type =>
    exact (resolve_keeps type s').ensures fun t _ => .pure ⟨hobjects, hf _, rfl, hnumbered⟩

theorem declareFunction_recorded {name : String} (hname : W name) {ps : List Tree.Param}
    (h : ∀ p ∈ ps, W p.name) (result : Option Tree.TypeExpr) (span : Span) :
    Ensures (declareFunction name ps result span) s fun f s' =>
      s'.objects = s.objects ∧ f.Own W ∧
      Numbered s.next s'.next (.symbol f.id :: f.params.map .ofVar) := by
  refine .bind (fresh_ensures (.bind (declare_ensures fun place events => .bind ?_)))
  refine (signature_recorded _ hname h result false).mono fun f s' h' => ?_
  obtain ⟨hobjects, hf, hid, hparams⟩ := h'
  refine .bind (update_ensures (.pure ⟨hobjects, hf, ?_⟩))
  rw [hid]
  exact (Numbered.symbol s.next).append hparams

theorem declareParams_recorded (vars : List Var) (ps : List Tree.Param) :
    Ensures (declareParams vars ps) s fun _ s' => s'.objects = s.objects ∧ s'.next = s.next := by
  induction vars generalizing s ps with
  | nil => exact .pure ⟨rfl, rfl⟩
  | cons v vars ih =>
    cases ps with
    | nil => exact .pure ⟨rfl, rfl⟩
    | cons p ps => exact .bind (declare_ensures fun place events => ih ps)

/-! ### Objects -/

/-- All objects of a state were declared in it, have no parameter twice, and have members with
names of a property. -/
def State.Recorded (W : String → Prop) (s : State) : Prop :=
  ∀ o ∈ s.objects, o.Named W ∧ o.Numbered s.next

namespace State.Recorded

theorem later (h : s.Recorded W) (hobjects : s'.objects = s.objects) (hnext : s.next ≤ s'.next) :
    s'.Recorded W := by
  intro o ho
  obtain ⟨hnamed, hnumbered⟩ := h o (hobjects ▸ ho)
  exact ⟨hnamed, hnumbered.later hnext⟩

/-- Changing the entries of a number, after more numbers were taken. -/
theorem modify (h : s.Recorded W) (hobjects : s'.objects = s.objects) (hnext : s.next ≤ s'.next)
    (id : Nat) (change : ObjectInfo → ObjectInfo)
    (hchange : ∀ o : ObjectInfo, o.ref.id = id → o.Named W → o.Numbered s.next →
      (change o).Named W ∧ (change o).Numbered s'.next) :
    { s' with objects := s'.objects.modify id change }.Recorded W := by
  intro o ho
  obtain ⟨o', ho', rfl⟩ := List.mem_map.1 ho
  split
  next hid =>
    obtain ⟨hnamed, hnumbered⟩ := h o' (hobjects ▸ ho')
    exact hchange o' (by simpa using hid) hnamed hnumbered
  next => exact h.later hobjects hnext o' ho'

theorem objectInfo (h : s.Recorded W) {ref : ObjectRef} (href : ref.id < s.next) :
    Yields (objectInfo ref) s fun o => o.Named W ∧ o.Numbered s.next ∧ o.ref.id = ref.id := by
  refine (Yields.objectInfo ref).mono fun info hinfo => ?_
  cases hget : s.objects.get? ref.id with
  | none =>
    rw [hinfo, hget]
    exact ⟨⟨by simp, by simp, by simp⟩, ⟨by simp, rfl, .nil href⟩, rfl⟩
  | some o =>
    rw [hinfo, hget]
    have hid := List.find?_some hget
    obtain ⟨hnamed, hnumbered⟩ := h o (List.mem_of_find?_eq_some hget)
    exact ⟨hnamed, hnumbered, by simpa using hid⟩

end State.Recorded

/-- An object starts without members, under the next number. -/
theorem declareObject_recorded (h : s.Recorded W) (name : String)
    {parameters : Option (List ForgeParam)} (hparameters : parameters.getD [] = [])
    (span : Span) :
    Ensures (declareObject name parameters span) s fun ref s' =>
      s'.Recorded W ∧ ref = ⟨s.next, name⟩ ∧ s.next < s'.next := by
  refine .bind (fresh_ensures (.bind (.modify (.bind (declare_ensures fun place events => ?_)))))
  refine .pure ⟨fun o ho => ?_, rfl, Nat.lt_succ_self _⟩
  obtain ho | ho := List.mem_append.1 ho
  · obtain ⟨hnamed, hnumbered⟩ := h o ho
    exact ⟨hnamed, hnumbered.later (Nat.le_succ _)⟩
  · obtain rfl := List.mem_singleton.1 ho
    have htaken : (ObjectInfo.mk ⟨s.next, name⟩ [] parameters []).taken = [] := by
      simp [ObjectInfo.taken, paramEntities, hparameters]
    refine ⟨⟨by simp, by simp, fun ps hps => ?_⟩, by simp, rfl, ?_⟩
    · have hps : parameters = some ps := hps
      obtain rfl : ps = [] := by simpa [hps] using hparameters
      simp
    · rw [htaken]
      exact .nil (Nat.le_refl _)

theorem addFields_recorded (h : s.Recorded W) {ref : ObjectRef} (href : ref.id < s.next)
    {definitions : List Tree.FieldDef} (hnames : ∀ f ∈ definitions, W f.name) :
    Ensures (addFields ref definitions) s fun _ s' => s'.Recorded W ∧ s'.next = s.next := by
  induction definitions generalizing s with
  | nil => exact .pure ⟨h, rfl⟩
  | cons f rest ih =>
    obtain ⟨hf, hrest⟩ := List.forall_mem_cons.1 hnames
    refine (h.objectInfo href).ensures fun known _ => Yields.require.ensures fun _ _ => ?_
    refine (resolve_keeps f.type s).ensures fun t _ => Yields.require.ensures fun _ _ => ?_
    refine .bind (.modify (ih (h.modify rfl (Nat.le_refl _) ref.id _ ?_) href hrest))
    intro o hid hnamed hnumbered
    rw [← hid]
    exact ⟨hnamed.addField hf, hnumbered.addField f.name t⟩

theorem objectFields_recorded (h : s.Recorded W) {ref : ObjectRef} (href : ref.id < s.next)
    {definitions : List Tree.FieldDef} (hnames : ∀ f ∈ definitions, W f.name) (span : Span) :
    Ensures (objectFields ref definitions span) s fun fields s' =>
      s'.Recorded W ∧ s'.next = s.next ∧ (∀ f ∈ fields, W f.name) ∧
      Numbered ref.id (ref.id + 1) (.symbol ref.id :: fields.map .ofField) := by
  refine .bind ((addFields_recorded h href hnames).mono fun _ s' h' => .bind (.get ?_))
  obtain ⟨hrecorded, hnext⟩ := h'
  refine Yields.require.ensures fun _ _ => ?_
  refine (hrecorded.objectInfo (hnext ▸ href)).ensures fun o ho => .pure ⟨hrecorded, hnext, ?_⟩
  obtain ⟨hnamed, hnumbered, hid⟩ := ho
  exact ⟨hnamed.fields, hid ▸ hnumbered.fields⟩

theorem addMethods_recorded (h : s.Recorded W) {ref : ObjectRef} (href : ref.id < s.next)
    {definitions : List Tree.FunctionDef} (hnames : Tree.functionsNamed W definitions) :
    Ensures (addMethods ref definitions) s fun _ s' => s'.Recorded W ∧ s.next ≤ s'.next := by
  induction definitions generalizing s with
  | nil => exact .pure ⟨h, Nat.le_refl _⟩
  | cons d rest ih =>
    obtain ⟨name, ps, result, body, span⟩ := d
    obtain ⟨⟨hname, hps, -⟩, hrest⟩ := hnames
    refine (h.objectInfo href).ensures fun known _ => Yields.require.ensures fun _ _ => ?_
    refine .bind (fresh_ensures (.bind ((signature_recorded _ hname hps result true).mono ?_)))
    rintro f s₁ ⟨hobjects, hf, -, hparams⟩
    have hnext : s.next < s₁.next := hparams.le
    refine .bind (.modify (Ensures.mono (ih (h.modify hobjects hnext.le ref.id _ ?_) ?_ hrest) ?_))
    · exact fun o _ hnamed hnumbered =>
        ⟨hnamed.addMethod hf, hnumbered.addMethod (Nat.le_succ _) hparams⟩
    · exact Nat.lt_trans href hnext
    · intro _ s₂ h₂
      exact ⟨h₂.1, Nat.le_trans hnext.le h₂.2⟩

theorem forgeParams_recorded {ps : List Tree.Param} (hnames : ∀ p ∈ ps, W p.name) :
    Ensures (forgeParams ps) s fun params s' => s'.objects = s.objects ∧
      (∀ p ∈ params, W p.name) ∧ Numbered s.next s'.next (params.map .ofParam) := by
  induction ps generalizing s with
  | nil => exact .pure ⟨rfl, by simp, .nil (Nat.le_refl _)⟩
  | cons p rest ih =>
    obtain ⟨hp, hrest⟩ := List.forall_mem_cons.1 hnames
    refine .bind (fresh_ensures ((resolve_keeps p.type _).ensures fun t _ => ?_))
    refine .bind (declare_ensures fun place events => .bind ((ih hrest).mono ?_))
    rintro params s' ⟨hobjects, hparams, hnumbered⟩
    refine .pure ⟨hobjects, List.forall_mem_cons.2 ⟨hp, hparams⟩, ?_⟩
    exact (Numbered.symbol s.next).append hnumbered

/-- The parameters of a forge are recorded with its object. -/
theorem forge_recorded (h : s.Recorded W) (ref : ObjectRef) {definition : Option Tree.Forge}
    (hnames : ∀ ps body span, definition = some (.mk ps body span) → ∀ p ∈ ps, W p.name) :
    Ensures (forge ref definition) s fun _ s' => s'.Recorded W ∧ s.next ≤ s'.next := by
  match definition with
  | none => exact .pure ⟨h, Nat.le_refl _⟩
  | some (.mk ps body span) =>
    refine nested_ensures (.bind ((forgeParams_recorded (hnames ps body span rfl)).mono ?_))
    rintro params s₁ ⟨hobjects, hparams, hnumbered⟩
    have hset := h.modify hobjects hnumbered.le ref.id
      (fun o => { o with parameters := some params })
      fun o _ ho ho' => ⟨ho.setParameters hparams, ho'.setParameters hnumbered⟩
    refine .bind (.modify (Ensures.mono (forgeBody_keeps ref [] body _) fun values s₂ h₂ => ?_))
    obtain ⟨rfl, -⟩ := h₂
    exact ⟨hset, hnumbered.le⟩

/-! ### Statements -/

/-- The entities of some result were numbered between two states. -/
def Declares (W : String → Prop) (entities : List Entity) (s s' : State) : Prop :=
  s'.Recorded W ∧ Numbered s.next s'.next entities

/-- Statements that declare names of a property. -/
def BlockDeclares (W : String → Prop) (body : List Tree.Stmt) : Prop :=
  ∀ s : State, s.Recorded W → Ensures (block body) s fun b s' =>
    Typed.blockNamed W b ∧ Declares W (Typed.blockEntities b) s s'

/-- A block in a frame of its own, given what its statements come to. -/
theorem BlockDeclares.nested {body : List Tree.Stmt} (hbody : BlockDeclares W body)
    (h : s.Recorded W) (change : Flags → Flags) :
    Ensures (nested change (block body)) s fun b s' =>
      Typed.blockNamed W b ∧ Declares W (Typed.blockEntities b) s s' :=
  nested_ensures (Ensures.mono (hbody (s.enter change) h) fun _ _ hb => hb)

/-- The body of a function or method. -/
theorem BlockDeclares.ofBody {body : List Tree.Stmt} (hbody : BlockDeclares W body)
    (h : s.Recorded W) (change : Flags → Flags) (vars : List Var) (ps : List Tree.Param) :
    Ensures (Check.nested change do
        declareParams vars ps
        block body) s
      fun b s' => Typed.blockNamed W b ∧ Declares W (Typed.blockEntities b) s s' := by
  refine nested_ensures (.bind (Ensures.mono (declareParams_recorded vars ps) fun _ s₁ h₁ => ?_))
  obtain ⟨hobjects, hnext⟩ := h₁
  have hrecorded : s₁.Recorded W := h.later hobjects hnext.ge
  refine (hbody s₁ hrecorded).mono fun _ _ hb => ⟨hb.1, hb.2.1, ?_⟩
  exact hb.2.2.mono hnext.ge (Nat.le_refl _)

/-- The body of a loop with an iterator, which takes a number before it. -/
theorem BlockDeclares.ofLoop {body : List Tree.Stmt} (hbody : BlockDeclares W body)
    (h : s.Recorded W) {name : String} (hname : W name) (type : Ty) (span : Span)
    {f : Var → List Typed.Stmt → Typed.Stmt}
    (hnamed : ∀ v b, (f v b).Named W ↔ v.Own W ∧ Typed.blockNamed W b)
    (hentities : ∀ v b, (f v b).entities = .ofVar v :: Typed.blockEntities b) :
    Ensures (do
        let v ← newVar name type false
        let b ← Check.nested inLoop do
          declare name (.var v) span
          block body
        pure (f v b)) s
      fun st s' => st.Named W ∧ Declares W st.entities s s' := by
  refine .bind (.bind (fresh_ensures (.pure (.bind (nested_ensures ?_)))))
  refine .bind (declare_ensures fun place events => ?_)
  refine Ensures.mono (hbody _ (h.later rfl (Nat.le_succ _))) fun b s₁ h₁ => .pure ?_
  refine ⟨(hnamed _ b).2 ⟨⟨hname, rfl⟩, h₁.1⟩, h₁.2.1, ?_⟩
  rw [hentities]
  exact (Numbered.symbol s.next).append h₁.2.2

/-- Nothing is declared. -/
theorem State.Recorded.declares_nil (h : s.Recorded W) : True ∧ Declares W [] s s :=
  ⟨trivial, h, .nil (Nat.le_refl _)⟩

mutual

/-- What a statement declares has new numbers, and names as in the tree. -/
theorem stmt_declares {s : State} (h : s.Recorded W) (t : Tree.Stmt) (ht : t.Named W) :
    Ensures (stmt t) s fun st s' => st.Named W ∧ Declares W st.entities s s' := by
  match t with
  | .declare mutable name type value span =>
    refine (resolve_keeps type s).ensures fun t _ => Yields.require.ensures fun _ _ => ?_
    refine (valueFor_keeps t value s).ensures fun init _ => ?_
    refine .bind (.bind (fresh_ensures (.pure (.bind (declare_ensures fun _ _ => .pure ?_)))))
    exact ⟨⟨ht, rfl⟩, h.later rfl (Nat.le_succ _), .symbol s.next⟩
  | .function (.mk name ps result body span) =>
    obtain ⟨hname, hps, hbody⟩ := ht
    refine .bind ((declareFunction_recorded hname hps result span).mono fun f s₁ h₁ => ?_)
    obtain ⟨hobjects, hf, hdeclared⟩ := h₁
    refine .bind (((block_declares body hbody).ofBody (h.later hobjects hdeclared.le) _ f.params
      ps).mono fun b s₂ h₂ => ?_)
    exact .bind (emit_ensures (.pure ⟨⟨hf, h₂.1⟩, h₂.2.1, hdeclared.append h₂.2.2⟩))
  | .matter name definitions span =>
    refine .bind ((declareObject_recorded h name rfl span).mono fun ref s₁ h₁ => ?_)
    obtain ⟨hrecorded, rfl, hnext⟩ := h₁
    refine .bind ((objectFields_recorded hrecorded hnext ht.2 span).mono fun fields s₂ h₂ => ?_)
    obtain ⟨hrecorded₂, hnext₂, hfields, hnumbered⟩ := h₂
    refine .pure ⟨⟨ht.1, by simpa using hfields, by simp, trivial⟩, hrecorded₂, ?_⟩
    rw [Typed.Stmt.entities, List.map_map, hnext₂]
    exact hnumbered.mono (Nat.le_refl _) hnext
  | .guild name definitions definition methodDefs span =>
    obtain ⟨hname, hfields, hforge, hmethods⟩ := ht
    refine .bind ((declareObject_recorded h name rfl span).mono fun ref s₁ h₁ => ?_)
    obtain ⟨hrecorded, rfl, hnext⟩ := h₁
    refine .bind ((objectFields_recorded hrecorded hnext hfields span).mono fun fields s₂ h₂ => ?_)
    obtain ⟨hrecorded₂, hnext₂, hnames, -⟩ := h₂
    have href₂ : s.next < s₂.next := hnext₂ ▸ hnext
    refine .bind ((addMethods_recorded hrecorded₂ href₂ hmethods).mono fun _ s₃ h₃ => ?_)
    refine .bind (.bind ((forge_recorded h₃.1 _ hforge).mono fun values s₄ h₄ => ?_))
    refine Yields.require.ensures fun _ _ => .pure ?_
    have href₄ : s.next < s₄.next := Nat.lt_of_lt_of_le href₂ (Nat.le_trans h₃.2 h₄.2)
    refine (h₄.1.objectInfo href₄).ensures fun known hknown => ?_
    obtain ⟨hnamed, hnumbered, hid⟩ := hknown
    refine .bind ((methods_declares h₄.1 _ known.methods methodDefs hnamed.methods hmethods).mono
      fun ms s₅ h₅ => .pure ?_)
    obtain ⟨hms, hrecorded₅, bodies, hbodies, hentities⟩ := h₅
    refine ⟨⟨hname, by simpa using hnames, hnamed.parameters, hms⟩, hrecorded₅, ?_⟩
    have hall := ((Numbered.symbol s.next).append (hid ▸ hnumbered.taken)).append hbodies
    refine hall.subperm ?_
    -- The parameters of the forge were numbered after those of the methods but come before them.
    refine (List.subperm_cons _).2 ((List.Subperm.append (List.Subperm.refl _) hentities).trans ?_)
    rw [ObjectInfo.taken, ← List.append_assoc]
    exact (List.perm_append_comm.append_right _).subperm
  | .print value span =>
    exact (expr_keeps value s).ensures fun e _ => (asValue_keeps e _ s).ensures fun v _ =>
      .pure h.declares_nil
  | .assign target value span =>
    exact (expr_keeps target s).ensures fun t _ => Yields.require.ensures fun _ _ =>
      (valueFor_keeps _ value s).ensures fun v _ => .pure h.declares_nil
  | .increment target span | .decrement target span =>
    exact (expr_keeps target s).ensures fun t _ => Yields.require.ensures fun _ _ =>
      Yields.require.ensures fun _ _ => .pure h.declares_nil
  | .return_ value span =>
    refine Yields.flags.ensures fun flags _ => ?_
    split
    · exact .fail _ _
    · cases value with
      | none => exact Yields.require.ensures fun _ _ => .pure h.declares_nil
      | some e =>
        exact Yields.require.ensures fun _ _ => (valueFor_keeps _ e s).ensures fun v _ =>
          .pure h.declares_nil
  | .branch test body alt span =>
    refine (expr_keeps test s).ensures fun t _ => Yields.require.ensures fun _ _ => ?_
    refine .bind (((block_declares body ht.1).nested h id).mono fun b s₁ h₁ => ?_)
    refine .bind ((alternate_declares h₁.2.1 alt ht.2).mono fun a s₂ h₂ => .pure ?_)
    exact ⟨⟨h₁.1, h₂.1⟩, h₂.2.1, h₁.2.2.append h₂.2.2⟩
  | .while_ test body span | .repeat_ test body span =>
    refine (expr_keeps test s).ensures fun t _ => Yields.require.ensures fun _ _ => ?_
    exact .bind (((block_declares body ht).nested h inLoop).mono fun b s₁ h₁ => .pure h₁)
  | .range iterator low kind high body span =>
    refine (expr_keeps low s).ensures fun l _ => Yields.require.ensures fun _ _ => ?_
    refine (expr_keeps high s).ensures fun u _ => Yields.require.ensures fun _ _ => ?_
    exact (block_declares body ht.2).ofLoop h ht.1 _ span (fun _ _ => Iff.rfl) fun _ _ => rfl
  | .forEach iterator collection body span =>
    refine (expr_keeps collection s).ensures fun c _ => ?_
    split
    · exact .fail _ _
    · exact (block_declares body ht.2).ofLoop h ht.1 _ span (fun _ _ => Iff.rfl) fun _ _ => rfl
  | .break_ span =>
    exact Yields.flags.ensures fun flags _ => Yields.require.ensures fun _ _ =>
      .pure h.declares_nil
  | .call callee args span outer =>
    exact (expr_keeps _ s).ensures fun e _ => .pure h.declares_nil

theorem block_declares (ts : List Tree.Stmt) (hts : Tree.blockNamed W ts) :
    BlockDeclares W ts := by
  intro s h
  match ts with
  | [] => exact .pure h.declares_nil
  | t :: rest =>
    refine .bind ((stmt_declares h t hts.1).mono fun st s₁ h₁ => ?_)
    refine .bind ((block_declares rest hts.2 s₁ h₁.2.1).mono fun ss s₂ h₂ => .pure ?_)
    exact ⟨⟨h₁.1, h₂.1⟩, h₂.2.1, h₁.2.2.append h₂.2.2⟩

theorem alternate_declares {s : State} (h : s.Recorded W) (t : Tree.Alternate) (ht : t.Named W) :
    Ensures (alternate t) s fun a s' => a.Named W ∧ Declares W a.entities s s' := by
  match t with
  | .none => exact .pure h.declares_nil
  | .block body =>
    exact .bind (((block_declares body ht).nested h id).mono fun b s₁ h₁ => .pure h₁)
  | .chain test body alt span =>
    refine (expr_keeps test s).ensures fun t _ => Yields.require.ensures fun _ _ => ?_
    refine .bind (((block_declares body ht.1).nested h id).mono fun b s₁ h₁ => ?_)
    refine .bind ((alternate_declares h₁.2.1 alt ht.2).mono fun a s₂ h₂ => .pure ?_)
    exact ⟨⟨h₁.1, h₂.1⟩, h₂.2.1, h₁.2.2.append h₂.2.2⟩

/-- The parameters of the methods were numbered before, with their signatures. -/
theorem methods_declares {s : State} (h : s.Recorded W) (ref : ObjectRef) (fs : List Func)
    (definitions : List Tree.FunctionDef) (hfs : ∀ f ∈ fs, f.Own W)
    (hdefs : Tree.functionsNamed W definitions) :
    Ensures (methods ref fs definitions) s fun ms s' =>
      Typed.methodsNamed W ms ∧ s'.Recorded W ∧ ∃ bodies, Numbered s.next s'.next bodies ∧
      (Typed.methodsEntities ms).Subperm (paramEntities fs ++ bodies) := by
  match fs, definitions with
  | f :: fs, .mk name ps result body span :: rest =>
    obtain ⟨⟨-, -, hbody⟩, hrest⟩ := hdefs
    obtain ⟨hf, hfs⟩ := List.forall_mem_cons.1 hfs
    refine .bind (((block_declares body hbody).ofBody h _ f.params ps).mono
      fun b s₁ h₁ => .bind (emit_ensures (.bind ?_)))
    refine Ensures.mono (methods_declares ?_ ref fs rest hfs hrest) fun ms s₂ h₂ => .pure ?_
    · exact h₁.2.1
    obtain ⟨hnamed, hrecorded, bodies, hbodies, hms⟩ := h₂
    refine ⟨⟨hf, h₁.1, hnamed⟩, hrecorded, Typed.blockEntities b ++ bodies,
      h₁.2.2.append hbodies, ?_⟩
    refine (List.Subperm.append (List.Subperm.refl _) hms).trans (List.Perm.subperm ?_)
    simp only [paramEntities, List.flatMap_cons, List.append_assoc]
    refine List.Perm.append_left _ ?_
    rw [← List.append_assoc, ← List.append_assoc]
    exact List.perm_append_comm.append_right _
  | [], [] | [], _ :: _ | _ :: _, [] =>
    exact .pure ⟨trivial, h, [], .nil (Nat.le_refl _), List.nil_subperm⟩

end

theorem recorded_initial : State.initial.Recorded W := by simp [State.Recorded, State.initial]

end Check

/-- The names that a tree declares are those of its program and of the objects known in the end. -/
theorem named_of_accepted {W : String → Prop} {tree : Tree.Program} {program : Typed.Program}
    (hnames : Tree.blockNamed W tree.statements)
    (haccepted : (Checked.ofTree tree).result = .ok program) :
    Typed.blockNamed W program.statements ∧ (Checked.ofTree tree).state.Named W := by
  have hblock := Check.block_declares tree.statements hnames _ Check.recorded_initial
  obtain ⟨hnamed, hrecorded, -⟩ := hblock _ _ (Checked.block_of_accepted haccepted)
  exact ⟨hnamed, fun o ho => (hrecorded o ho).1⟩

/-- No two things that a checked program declares have the same number. -/
theorem nodup_entities_of_accepted {tree : Tree.Program} {program : Typed.Program}
    (haccepted : (Checked.ofTree tree).result = .ok program) :
    (Typed.blockEntities program.statements).Nodup := by
  have hblock := Check.block_declares tree.statements (Tree.blockNamed_true _) _
    Check.recorded_initial
  exact (hblock _ _ (Checked.block_of_accepted haccepted)).2.2.nodup

end Dragon
