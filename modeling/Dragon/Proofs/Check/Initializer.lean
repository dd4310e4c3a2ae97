import Dragon.Proofs.Check.Forges
import Dragon.Proofs.Tree.Grammar

/-!
# When the forge of a guild is accepted

Once the fields, the signatures of the methods and the parameters of the forge have passed,
acceptance depends on the statements of the forge alone: each assigns a field of `mine`, together
they assign every field once, and the values can be stored there.
-/
namespace Dragon

namespace Typed.Expr

/-- A value for a target of a type. An empty list is one for every type of lists. -/
def Storable (v : Expr) (type : Ty) : Prop :=
  v.type ≠ .zilch ∧
    (v.type.assignable type = true ∨ v.isEmptyList = true ∧ ∃ element, type = .list element)

/-- A value as it is stored in a target of a type. -/
def storedAs (v : Expr) (type : Ty) : Expr :=
  if v.isEmptyList && type.element?.isSome then .emptyList type else v

end Typed.Expr

namespace Check

open Typed

variable {s s' s₀ inside : State} {Γ : Context} {ref : ObjectRef} {info : ObjectInfo}
  {definition : Option Tree.Forge} {body : List Tree.Stmt} {values : List (String × Expr)}

/-! ### Values -/

theorem isSome_element? {t : Ty} : t.element?.isSome = true ↔ ∃ element, t = .list element := by
  cases t <;> simp [Ty.element?]

/-- Everything is a value but what has no type of values. -/
theorem asValue_eq_ok {e v : Expr} {span : Span} :
    asValue e span s = .ok v s' ↔ e.type ≠ .zilch ∧ v = e ∧ s' = s := by
  have hvalue : (!e.type.is .zilch) = true ↔ e.type ≠ .zilch := by
    rw [Bool.not_eq_true', Bool.eq_false_iff, ne_eq, Ty.is_eq_true]
  rw [asValue, bind_eq_ok, ← hvalue]
  constructor
  · rintro ⟨u, s₁, hrequire, hpure⟩
    obtain ⟨hholds, rfl⟩ := require_eq_ok.1 hrequire
    cases hpure
    exact ⟨hholds, rfl, rfl⟩
  · rintro ⟨hholds, rfl, rfl⟩
    exact ⟨(), _, require_eq_ok.2 ⟨hholds, rfl⟩, rfl⟩

/-- A value is stored where its type may stand, and an empty list in every list. -/
theorem coerce_eq_ok {e v : Expr} {type : Ty} {span : Span} :
    coerce e type span s = .ok v s' ↔
      (e.type.assignable type = true ∨ e.isEmptyList = true ∧ ∃ element, type = .list element) ∧
        v = e.storedAs type ∧ s' = s := by
  rw [← isSome_element?, ← Bool.and_eq_true_iff, Expr.storedAs]
  unfold coerce
  split
  next hempty =>
    constructor
    · rintro ⟨⟩
      exact ⟨.inr hempty, rfl, rfl⟩
    · rintro ⟨-, rfl, rfl⟩
      rfl
  next hempty =>
    rw [bind_eq_ok, or_iff_left hempty]
    constructor
    · rintro ⟨u, s₁, hrequire, hpure⟩
      obtain ⟨hholds, rfl⟩ := require_eq_ok.1 hrequire
      cases hpure
      exact ⟨hholds, rfl, rfl⟩
    · rintro ⟨hholds, rfl, rfl⟩
      exact ⟨(), _, require_eq_ok.2 ⟨hholds, rfl⟩, rfl⟩

/-- A value is accepted for a type just when it can be stored. -/
theorem valueFor_eq_ok {type : Ty} {e : Tree.Expr} {value : Expr} :
    valueFor type e s = .ok value s' ↔
      s' = s ∧ ∃ v, expr e s = .ok v s ∧ v.Storable type ∧ value = v.storedAs type := by
  constructor
  · intro h
    obtain ⟨v, s₁, hexpr, hrest⟩ := bind_eq_ok.1 h
    obtain ⟨rfl, -⟩ := expr_keeps e s v s₁ hexpr
    obtain ⟨w, s₂, hvalue, hcoerce⟩ := bind_eq_ok.1 hrest
    obtain ⟨hvalues, rfl, rfl⟩ := asValue_eq_ok.1 hvalue
    obtain ⟨hfits, rfl, rfl⟩ := coerce_eq_ok.1 hcoerce
    exact ⟨rfl, w, hexpr, ⟨hvalues, hfits⟩, rfl⟩
  · rintro ⟨rfl, v, hexpr, ⟨hvalues, hfits⟩, rfl⟩
    exact bind_eq_ok.2 ⟨v, _, hexpr, bind_eq_ok.2
      ⟨v, _, asValue_eq_ok.2 ⟨hvalues, rfl, rfl⟩, coerce_eq_ok.2 ⟨hfits, rfl, rfl⟩⟩⟩

/-! ### Forges -/

theorem member?_eq_field {f : Field} (hf : f ∈ info.fields)
    (hnames : (info.fields.map (·.name)).Nodup) : info.member? f.name = some (.field f) := by
  have hfind : info.fields.find? (·.name == f.name) = some f := by
    cases hfound : info.fields.find? (·.name == f.name) with
    | none => simpa using List.find?_eq_none.1 hfound f hf
    | some g =>
      have hname : g.name = f.name := by simpa using List.find?_some hfound
      rw [List.inj_on_of_nodup_map hnames (List.mem_of_find?_eq_some hfound) hf hname]
  rw [ObjectInfo.member?, hfind]

/-- An assignment to a field of `mine` has that field for its target. -/
theorem forgeTarget_of_setting (h : s.objects.get? ref.id = some info) {t : Tree.Stmt} {f : Field}
    {e : Tree.Expr} (hsetting : t.setting? = some (f.name, e)) (hf : f ∈ info.fields)
    (hnames : (info.fields.map (·.name)).Nodup) : forgeTarget ref t s = .ok (f, e) s := by
  unfold Tree.Stmt.setting? at hsetting
  split at hsetting
  next name targetSpan value span =>
    obtain ⟨rfl, rfl⟩ := Prod.mk.inj (Option.some.inj hsetting)
    have hinfo : objectInfo ref s = .ok info s := by
      show EStateM.Result.ok ((s.objects.get? ref.id).getD _) s = _
      rw [h]
      rfl
    refine bind_eq_ok.2 ⟨info, s, hinfo, ?_⟩
    rw [member?_eq_field hf hnames]
    rfl
  next => cases hsetting

/-- Statements that give values to different fields are accepted with these values. -/
theorem forgeBody_of_gives (h : s.objects.get? ref.id = some info)
    (hnames : (info.fields.map (·.name)).Nodup) (hgives : List.Forall₂ (Gives s info) body values)
    (assigned : List (String × Expr)) (hnodup : ((assigned ++ values).map Prod.fst).Nodup) :
    forgeBody ref assigned body s = .ok (assigned ++ values) s := by
  induction hgives generalizing assigned with
  | nil =>
    rw [List.append_nil]
    rfl
  | @cons t p body values hgive _ ih =>
    obtain ⟨f, hf, hname, e, hsetting, hvalue⟩ := hgive
    obtain ⟨name, value⟩ := p
    obtain rfl : f.name = name := hname
    -- What was assigned before is kept apart from what follows by the names of both together.
    have hfresh : assigned.all (·.1 != f.name) = true := by
      rw [List.map_append, List.map_cons] at hnodup
      refine List.all_eq_true.2 fun q hq => bne_iff_ne.2 fun hsame => ?_
      exact (List.nodup_append.1 hnodup).2.2 q.1 (List.mem_map_of_mem hq) f.name
        List.mem_cons_self hsame
    rw [List.append_cons] at hnodup ⊢
    refine bind_eq_ok.2 ⟨(f, e), s, forgeTarget_of_setting h hsetting hf hnames, ?_⟩
    refine bind_eq_ok.2 ⟨(), s, require_eq_ok.2 ⟨hfresh, rfl⟩, ?_⟩
    exact bind_eq_ok.2 ⟨value, s, hvalue, ih _ hnodup⟩

/-! ### Initializers -/

/-- Statements that assign each of some fields of `mine` once, and nothing else, to values that can
be stored there. -/
structure Initializes (inside : State) (fields : List Field) (body : List Tree.Stmt) : Prop where
  settings : ∀ t ∈ body, t.setting?.isSome = true
  once : ((body.filterMap Tree.Stmt.setting?).map Prod.fst).Perm (fields.map (·.name))
  values : ∀ f ∈ fields, ∀ e, (f.name, e) ∈ body.filterMap Tree.Stmt.setting? →
    ∃ v, expr e inside = .ok v inside ∧ v.Storable f.type

theorem exists_forall₂ {α β : Type} {R : α → β → Prop} {as : List α}
    (h : ∀ a ∈ as, ∃ b, R a b) : ∃ bs, List.Forall₂ R as bs := by
  induction as with
  | nil => exact ⟨[], .nil⟩
  | cons a rest ih =>
    obtain ⟨⟨b, hb⟩, hrest⟩ := List.forall_mem_cons.1 h
    obtain ⟨bs, hbs⟩ := ih hrest
    exact ⟨b :: bs, .cons hb hbs⟩

/-- What a forge has to give, it gives, and no field is missing. -/
theorem Initializes.gives (h : Initializes s info.fields body) :
    ∃ values, List.Forall₂ (Gives s info) body values ∧
      (info.fields.filter fun f => values.all (·.1 != f.name)).isEmpty = true := by
  have hgives : ∀ t ∈ body, ∃ p, Gives s info t p := by
    intro t ht
    obtain ⟨⟨name, e⟩, hsetting⟩ := Option.isSome_iff_exists.1 (h.settings t ht)
    have he : (name, e) ∈ body.filterMap Tree.Stmt.setting? :=
      List.mem_filterMap.2 ⟨t, ht, hsetting⟩
    obtain ⟨f, hf, rfl⟩ := List.mem_map.1 (h.once.subset (List.mem_map_of_mem he))
    obtain ⟨v, hexpr, hstorable⟩ := h.values f hf e he
    exact ⟨(f.name, v.storedAs f.type), f, hf, rfl, e, hsetting,
      valueFor_eq_ok.2 ⟨rfl, v, hexpr, hstorable, rfl⟩⟩
  obtain ⟨values, hvalues⟩ := exists_forall₂ hgives
  refine ⟨values, hvalues, List.isEmpty_iff.2 (List.filter_eq_nil_iff.2 fun f hf hall => ?_)⟩
  have hname := h.once.symm.subset (List.mem_map_of_mem hf)
  rw [names_of_gives hvalues] at hname
  obtain ⟨p, hp, hname⟩ := List.mem_map.1 hname
  exact bne_iff_ne.1 (List.all_eq_true.1 hall p hp) hname

/-- Two values for one field are the same, since no name is assigned twice. -/
theorem value_unique (hnodup : (values.map Prod.fst).Nodup)
    (hgives : List.Forall₂ (Gives s info) body values) {name : String} {e e' : Tree.Expr}
    (h : (name, e) ∈ body.filterMap Tree.Stmt.setting?)
    (h' : (name, e') ∈ body.filterMap Tree.Stmt.setting?) : e = e' := by
  rw [← names_of_gives hgives] at hnodup
  exact (Prod.mk.inj (List.inj_on_of_nodup_map hnodup h h' rfl)).2

/-- What an accepted forge gives its fields initializes them. -/
theorem initializes_of_gives (hfields : (info.fields.map (·.name)).Nodup)
    (hnodup : (values.map Prod.fst).Nodup) (hgives : List.Forall₂ (Gives s info) body values)
    (hmissing : (info.fields.filter fun f => values.all (·.1 != f.name)).isEmpty = true) :
    Initializes s info.fields body := by
  have hforges := forges_of_gives hfields hnodup hgives hmissing
  have honce := hforges.once
  rw [List.map_map] at honce
  refine ⟨hforges.settings, honce, fun f hf e he => ?_⟩
  obtain ⟨e', value, he', -, hvalue⟩ := lookup_of_gives hfields hgives hmissing hf
  obtain rfl := value_unique hnodup hgives he he'
  obtain ⟨-, v, hexpr, hstorable, -⟩ := valueFor_eq_ok.1 hvalue
  exact ⟨v, hexpr, hstorable⟩

/-- The forge of a guild is accepted just when its statements assign each field of `mine` once, to
values that can be stored there, and do nothing else. Every field then has the value of the only
statement that assigns it. -/
theorem initialFields_ok_iff {s₁ s₂ s₃ : State} {name : String} {span : Span}
    {definitions : List Tree.FieldDef} {fields : List Field} {methodDefs : List Tree.FunctionDef}
    (valid : Valid s Γ) (hdeclare : declareObject name (some []) span s = .ok ref s₁)
    (hfields : objectFields ref definitions span s₁ = .ok fields s₂)
    (hmethods : addMethods ref methodDefs s₂ = .ok () s₃)
    (henters : EntersForge ref definition s₃ inside) :
    ((∃ inits s', initialFields ref fields definition span s₃ = .ok inits s') ↔
      Initializes inside fields (Tree.forgeStatements definition)) ∧
    ∀ inits s', initialFields ref fields definition span s₃ = .ok inits s' →
      inits.map (·.field) = fields ∧
      ∀ init ∈ inits, ∃! e,
        (init.field.name, e) ∈ (Tree.forgeStatements definition).filterMap Tree.Stmt.setting? ∧
        ∃ v, expr e inside = .ok v inside ∧ init.value = some (v.storedAs init.field.type) := by
  have hdeclared := declareObject_ensures valid name (some []) span (by simp) _ _ hdeclare
  obtain ⟨hbuilt, hnames⟩ :=
    objectFields_ensures hdeclared List.nodup_nil definitions span _ _ hfields
  obtain ⟨methods, hbuilt, -⟩ := addMethods_ensures hbuilt methodDefs (by simp) _ _ hmethods
  -- Parameters leave the object as it was declared, so its fields are the ones that are looked up.
  obtain ⟨s₄, Γ₄, info, hinside, hinfo⟩ := henters.building hbuilt
  obtain rfl : info.fields = fields := hinfo
  refine ⟨⟨?_, fun h => ?_⟩, fun inits s' h => ?_⟩
  · rintro ⟨inits, s', h⟩
    obtain ⟨values, hnodup, hgives, hmissing, -⟩ := gives_of_initialFields henters hinside h
    exact initializes_of_gives hnames hnodup hgives hmissing
  · obtain ⟨values, hgives, hmissing⟩ := h.gives
    have hnodup : (values.map Prod.fst).Nodup :=
      names_of_gives hgives ▸ h.once.nodup_iff.2 hnames
    have hbody := forgeBody_of_gives hinside.entry hnames hgives [] hnodup
    obtain ⟨s', hforge⟩ := (forge_eq_ok henters).2 hbody
    exact ⟨_, s', initialFields_eq_ok.2 ⟨values, hforge, hmissing, rfl⟩⟩
  · obtain ⟨values, hnodup, hgives, hmissing, rfl⟩ := gives_of_initialFields henters hinside h
    refine ⟨by simp [Function.comp_def], fun init hinit => ?_⟩
    obtain ⟨f, hf, rfl⟩ := List.mem_map.1 hinit
    obtain ⟨e, value, he, hlookup, hvalue⟩ := lookup_of_gives hnames hgives hmissing hf
    obtain ⟨-, v, hexpr, -, rfl⟩ := valueFor_eq_ok.1 hvalue
    exact ⟨e, ⟨he, v, hexpr, hlookup⟩, fun e' he' => value_unique hnodup hgives he'.1 he⟩

/-- A forge that fills two fields in the other order, one of them with an empty list. -/
def emptyPouch : Tree.Forge :=
  .mk [⟨"n", .named "int" .nowhere, .nowhere⟩]
    [.assign (.member (.mine .nowhere) .plain "held" .nowhere) (.identifier "n" .nowhere) .nowhere,
      .assign (.member (.mine .nowhere) .plain "coins" .nowhere) (.list [] .nowhere) .nowhere]
    .nowhere

def pouchFields : List Tree.FieldDef :=
  [⟨"coins", .list (.named "int" .nowhere) .nowhere, .nowhere⟩,
    ⟨"held", .named "int" .nowhere, .nowhere⟩]

theorem initialFields_emptyPouch :
    ∃ ref s₁ fields s₂ s₃ inside, declareObject "Pouch" (some []) .nowhere .initial = .ok ref s₁ ∧
      objectFields ref pouchFields .nowhere s₁ = .ok fields s₂ ∧
      addMethods ref [] s₂ = .ok () s₃ ∧ EntersForge ref (some emptyPouch) s₃ inside ∧
      Initializes inside fields (Tree.forgeStatements (some emptyPouch)) ∧
      ∃ inits s', initialFields ref fields (some emptyPouch) .nowhere s₃ = .ok inits s' ∧
        inits.map (·.field) = fields := by
  have hsome : (EStateM.run' (stmt (.guild "Pouch" pouchFields (some emptyPouch) [] .nowhere))
      .initial).isSome = true := by decide +kernel
  delta EStateM.run' EStateM.run at hsome
  split at hsome
  next st s' hrun =>
    obtain ⟨ref, s₁, hdeclare, hrun⟩ := bind_eq_ok.1 hrun
    obtain ⟨fields, s₂, hfields, hrun⟩ := bind_eq_ok.1 hrun
    obtain ⟨⟨⟩, s₃, hmethods, hrun⟩ := bind_eq_ok.1 hrun
    obtain ⟨inits, s₄, hinits, -⟩ := bind_eq_ok.1 hrun
    obtain ⟨values, hforge, -⟩ := initialFields_eq_ok.1 hinits
    obtain ⟨inside, henters⟩ := entersForge_of_forge hforge
    have hiff := initialFields_ok_iff valid_initial hdeclare hfields hmethods henters
    exact ⟨ref, s₁, fields, s₂, s₃, inside, hdeclare, hfields, hmethods, henters,
      hiff.1.1 ⟨inits, s₄, hinits⟩, inits, s₄, hinits, (hiff.2 inits s₄ hinits).1⟩
  next => cases hsome

end Check

end Dragon
