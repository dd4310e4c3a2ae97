import Dragon.Proofs.Check.Expr
import Dragon.Proofs.Check.Inside

/-!
# What guilds are constructed with

A forge assigns every field of its guild once and does nothing else. Its values are kept with the
fields, so that what is left of it is in the order of their declaration, whatever the order of the
forge was.
-/
namespace Dragon

/-! ### Matters and guilds -/

namespace Tree

/-- The name of the field that a statement of a forge gives a value, and that value. -/
def Stmt.setting? : Stmt → Option (String × Expr)
  | .assign (.member (.mine _) .plain name _) value _ => some (name, value)
  | _ => none

/-- A matter or a guild as it is written, a guild with the statements of its forge. -/
structure ObjectDef where
  name : String
  fields : List FieldDef
  forge : Option (List Stmt)

def forgeStatements : Option Forge → List Stmt
  | none => []
  | some (.mk _ body _) => body

/-- The matter or guild that a statement is. -/
def Stmt.objectDef : Stmt → List ObjectDef
  | .matter name fields _ => [⟨name, fields, none⟩]
  | .guild name fields forge _ _ => [⟨name, fields, some (forgeStatements forge)⟩]
  | _ => []

/-- The matters and guilds of a program, at any depth. A forge has none, since it only assigns. -/
def Program.objectDefs (p : Program) : List ObjectDef := p.inside.flatMap Stmt.objectDef

end Tree

namespace Typed

/-- A matter or a guild as it is declared, with the values of its fields. -/
structure ObjectDecl where
  kind : ObjectKind
  ref : ObjectRef
  fields : List FieldInit

/-- The matter or guild that a statement declares. -/
def Stmt.objectDecl : Stmt → List ObjectDecl
  | .object kind ref fields _ _ => [⟨kind, ref, fields⟩]
  | _ => []

/-- The matters and guilds that a program declares, at any depth. -/
def Program.objectDecls (p : Program) : List ObjectDecl := p.inside.flatMap Stmt.objectDecl

end Typed

namespace Check

open Typed

variable {α : Type} {s s₀ : State} {Γ : Context} {ref : ObjectRef} {info : ObjectInfo}

/-- A field has the value that the only statement of a forge for it gives it. -/
def Forged (body : List Tree.Stmt) (f : FieldInit) : Prop :=
  ∃ v value s, (f.field.name, v) ∈ body.filterMap Tree.Stmt.setting? ∧ f.value = some value ∧
    valueFor f.field.type v s = .ok value s

/-- A forge assigns each of the fields once and does nothing else, and they have its values. -/
structure Forges (body : List Tree.Stmt) (fields : List FieldInit) : Prop where
  settings : ∀ t ∈ body, t.setting?.isSome = true
  once : ((body.filterMap Tree.Stmt.setting?).map Prod.fst).Perm (fields.map (·.field.name))
  values : ∀ f ∈ fields, Forged body f

/-! ### One forge -/

theorem name_of_member? {name : String} {f : Field} (h : info.member? name = some (.field f)) :
    f.name = name := by
  unfold ObjectInfo.member? at h
  split at h
  next g hg =>
    cases h
    simpa using List.find?_some hg
  next =>
    obtain ⟨m, -, hm⟩ := Option.map_eq_some_iff.1 h
    cases hm

/-- The field that a statement of a forge is for has the name that is written there. -/
theorem forgeTarget_setting (h : Building s₀ Γ ref info s) (t : Tree.Stmt) :
    Yields (forgeTarget ref t) s fun target =>
      target.1 ∈ info.fields ∧ t.setting? = some (target.1.name, target.2) := by
  unfold forgeTarget
  split
  next =>
    refine h.objectInfo.bind fun known hknown => ?_
    split
    next f hf =>
      rw [hknown] at hf
      refine .pure ⟨has_of_member? hf, ?_⟩
      rw [name_of_member? hf]
      rfl
    next => exact .fail _ _
  next => exact .fail _ _

/-- A statement of a forge gives a field of an object a value. -/
def Gives (s : State) (info : ObjectInfo) (t : Tree.Stmt) (p : String × Expr) : Prop :=
  ∃ f ∈ info.fields, f.name = p.1 ∧ ∃ v, t.setting? = some (p.1, v) ∧
    valueFor f.type v s = .ok p.2 s

/-- The values of a forge are those of its statements, one by one, and no field has two. -/
theorem forgeBody_gives (h : Building s₀ Γ ref info s) (ts : List Tree.Stmt)
    (assigned : List (String × Expr)) (hnodup : (assigned.map Prod.fst).Nodup) :
    Yields (forgeBody ref assigned ts) s fun values => (values.map Prod.fst).Nodup ∧
      ∃ new, values = assigned ++ new ∧ List.Forall₂ (Gives s info) ts new := by
  induction ts generalizing assigned with
  | nil => exact .pure ⟨hnodup, [], by simp, .nil⟩
  | cons t rest ih =>
    refine (forgeTarget_setting h t).bind fun target htarget => ?_
    refine Yields.require.bind fun _ hfresh => ?_
    have hvalue : Yields (valueFor target.1.type target.2) s fun value =>
        valueFor target.1.type target.2 s = .ok value s := by
      intro value s' hrun
      obtain ⟨rfl, -⟩ := valueFor_keeps _ _ s value s' hrun
      exact ⟨rfl, hrun⟩
    refine hvalue.bind fun value hrun => ?_
    have hnew : ((assigned ++ [(target.1.name, value)]).map Prod.fst).Nodup := by
      rw [List.map_append, List.map_singleton, List.nodup_append]
      refine ⟨hnodup, List.nodup_singleton _, List.forall_mem_map.2 fun p hp name hname => ?_⟩
      rw [List.mem_singleton.1 hname]
      exact bne_iff_ne.1 (List.all_eq_true.1 hfresh p hp)
    refine (ih _ hnew).mono fun values hvalues => ⟨hvalues.1, ?_⟩
    obtain ⟨-, new, rfl, hgives⟩ := hvalues
    exact ⟨(target.1.name, value) :: new, by simp,
      .cons ⟨target.1, htarget.1, rfl, target.2, htarget.2, hrun⟩ hgives⟩

section Values

variable {body : List Tree.Stmt} {values : List (String × Expr)}

theorem isSome_of_gives (h : List.Forall₂ (Gives s info) body values) :
    ∀ t ∈ body, t.setting?.isSome = true := by
  induction h with
  | nil => simp
  | cons hgives _ ih =>
    obtain ⟨f, -, -, v, hsetting, -⟩ := hgives
    exact List.forall_mem_cons.2 ⟨by rw [hsetting]; rfl, ih⟩

theorem names_of_gives (h : List.Forall₂ (Gives s info) body values) :
    (body.filterMap Tree.Stmt.setting?).map Prod.fst = values.map Prod.fst := by
  induction h with
  | nil => rfl
  | cons hgives _ ih =>
    obtain ⟨f, -, -, v, hsetting, -⟩ := hgives
    rw [List.filterMap_cons_some hsetting, List.map_cons, List.map_cons, ih]

/-- Every field of a guild is assigned, and has the value that it is given. -/
theorem lookup_of_gives (hfields : (info.fields.map (·.name)).Nodup)
    (hgives : List.Forall₂ (Gives s info) body values)
    (hmissing : (info.fields.filter fun f => values.all (·.1 != f.name)).isEmpty = true)
    {f : Field} (hf : f ∈ info.fields) :
    ∃ v e, (f.name, v) ∈ body.filterMap Tree.Stmt.setting? ∧ values.lookup f.name = some e ∧
      valueFor f.type v s = .ok e s := by
  cases he : values.lookup f.name with
  | none =>
    have hall : values.all (·.1 != f.name) = true := by
      refine List.all_eq_true.2 fun p hp => ?_
      rw [bne_comm]
      exact List.lookup_eq_none_iff.1 he p hp
    have hmem : f ∈ info.fields.filter fun f => values.all (·.1 != f.name) :=
      List.mem_filter.2 ⟨hf, hall⟩
    rw [List.isEmpty_iff.1 hmissing] at hmem
    cases hmem
  | some e =>
    obtain ⟨l, l', rfl, -⟩ := List.lookup_eq_some_iff.1 he
    obtain ⟨t, ht, f', hf', hname, v, hsetting, hvalue⟩ :=
      exists_of_mem_right hgives (List.mem_append_right l List.mem_cons_self)
    obtain rfl := List.inj_on_of_nodup_map hfields hf' hf hname
    exact ⟨v, e, List.mem_filterMap.2 ⟨t, ht, hsetting⟩, rfl, hvalue⟩

/-- If no field is without a value, the forge assigns each of them once. -/
theorem forges_of_gives (hfields : (info.fields.map (·.name)).Nodup)
    (hnodup : (values.map Prod.fst).Nodup) (hgives : List.Forall₂ (Gives s info) body values)
    (hmissing : (info.fields.filter fun f => values.all (·.1 != f.name)).isEmpty = true) :
    Forges body (info.fields.map fun f => ⟨f, values.lookup f.name⟩) := by
  have hnames (name : String) :
      name ∈ values.map Prod.fst ↔ name ∈ info.fields.map (·.name) := by
    constructor
    · intro hname
      obtain ⟨p, hp, rfl⟩ := List.mem_map.1 hname
      obtain ⟨t, -, f, hf, hfname, -⟩ := exists_of_mem_right hgives hp
      exact List.mem_map.2 ⟨f, hf, hfname⟩
    · intro hname
      obtain ⟨f, hf, rfl⟩ := List.mem_map.1 hname
      obtain ⟨v, e, hv, -⟩ := lookup_of_gives hfields hgives hmissing hf
      rw [← names_of_gives hgives]
      exact List.mem_map_of_mem hv
  refine ⟨isSome_of_gives hgives, ?_, fun init hinit => ?_⟩
  · rw [names_of_gives hgives, List.map_map]
    exact (List.perm_ext_iff_of_nodup hnodup hfields).2 hnames
  · obtain ⟨f, hf, rfl⟩ := List.mem_map.1 hinit
    obtain ⟨v, e, hv, hlookup, hvalue⟩ := lookup_of_gives hfields hgives hmissing hf
    exact ⟨v, e, s, hv, hlookup, hvalue⟩

end Values

section Fields

variable {s' inside : State} {definition : Option Tree.Forge} {values : List (String × Expr)}

/-- The state in which the values of a forge are checked, behind its parameters. -/
def EntersForge (ref : ObjectRef) : Option Tree.Forge → State → State → Prop
  | none, s, inside => inside = s
  | some (.mk ps _ _), s, inside => ∃ params s₁,
    forgeParams ps (s.enter fun _ => ⟨false, none, some ref⟩) = .ok params s₁ ∧
      modifyObject ref (fun o => { o with parameters := some params }) s₁ = .ok () inside

/-- Behind the parameters of a forge, the fields of the guild are what they were. -/
theorem EntersForge.building (henters : EntersForge ref definition s inside)
    (h : Building s₀ Γ ref info s) :
    ∃ s₁ Γ₁ info', Building s₁ Γ₁ ref info' inside ∧ info'.fields = info.fields := by
  match definition with
  | none =>
    obtain rfl : inside = s := henters
    exact ⟨s₀, Γ, info, h, rfl⟩
  | some (.mk ps body span) =>
    obtain ⟨params, s₁, hparams, hset⟩ := henters
    have hinner := h.enter (fun _ => ⟨false, none, some ref⟩) (by simp)
    obtain ⟨hbuilt, haligned⟩ := forgeParams_ensures hinner ps params s₁ hparams
    cases hset
    have hmodified := hbuilt.modify (fun o => { o with parameters := some params })
      (fun _ => rfl) fun o ho => ho.setParameters haligned
    exact ⟨_, _, _, hmodified, rfl⟩

theorem entersForge_of_forge (h : forge ref definition s = .ok values s') :
    ∃ inside, EntersForge ref definition s inside := by
  match definition with
  | none => exact ⟨s, rfl⟩
  | some (.mk ps body span) =>
    obtain ⟨-, -, ⟨⟩, hnested⟩ := bind_eq_ok.1 h
    obtain ⟨values, s₂, hinner, -⟩ := bind_eq_ok.1 hnested
    obtain ⟨params, s₁, hparams, hrest⟩ := bind_eq_ok.1 hinner
    obtain ⟨⟨⟩, inside, hset, -⟩ := bind_eq_ok.1 hrest
    exact ⟨inside, params, s₁, hparams, hset⟩

/-- Once it is entered, a forge is accepted exactly if its statements are. -/
theorem forge_eq_ok (henters : EntersForge ref definition s inside) :
    (∃ s', forge ref definition s = .ok values s') ↔
      forgeBody ref [] (Tree.forgeStatements definition) inside = .ok values inside := by
  match definition with
  | none =>
    obtain rfl : inside = s := henters
    constructor
    · rintro ⟨s', ⟨⟩⟩
      rfl
    · rintro ⟨⟩
      exact ⟨inside, rfl⟩
  | some (.mk ps body span) =>
    obtain ⟨params, s₁, hparams, hset⟩ := henters
    constructor
    · rintro ⟨s', h⟩
      obtain ⟨-, -, ⟨⟩, h⟩ := bind_eq_ok.1 h
      obtain ⟨values', s₂, hbody, h⟩ := bind_eq_ok.1 h
      obtain ⟨-, -, ⟨⟩, ⟨⟩⟩ := bind_eq_ok.1 h
      obtain ⟨params', s₃, hparams', hbody⟩ := bind_eq_ok.1 hbody
      cases hparams.symm.trans hparams'
      obtain ⟨u, s₄, hset', hbody⟩ := bind_eq_ok.1 hbody
      cases hset.symm.trans hset'
      obtain ⟨rfl, -⟩ := forgeBody_keeps ref [] body inside values s₂ hbody
      exact hbody
    · intro h
      exact ⟨_, bind_eq_ok.2 ⟨(), _, rfl, bind_eq_ok.2 ⟨values, inside, bind_eq_ok.2
        ⟨params, s₁, hparams, bind_eq_ok.2 ⟨(), inside, hset, h⟩⟩, rfl⟩⟩⟩

/-- Fields have values if the forge is accepted and assigns all of them. -/
theorem initialFields_eq_ok {fields : List Field} {span : Span} {inits : List FieldInit} :
    initialFields ref fields definition span s = .ok inits s' ↔
      ∃ values, forge ref definition s = .ok values s' ∧
        (fields.filter fun f => values.all (·.1 != f.name)).isEmpty = true ∧
        inits = fields.map fun f => ⟨f, values.lookup f.name⟩ := by
  unfold initialFields
  rw [bind_eq_ok]
  constructor
  · rintro ⟨values, s₁, hforge, h⟩
    obtain ⟨u, s₂, hrequire, hpure⟩ := bind_eq_ok.1 h
    obtain ⟨hmissing, rfl⟩ := require_eq_ok.1 hrequire
    cases hpure
    exact ⟨values, hforge, hmissing, rfl⟩
  · rintro ⟨values, hforge, hmissing, rfl⟩
    exact ⟨values, s', hforge, bind_eq_ok.2 ⟨(), s', require_eq_ok.2 ⟨hmissing, rfl⟩, rfl⟩⟩

/-- An accepted forge gives its values one by one, and no field is missing. -/
theorem gives_of_initialFields (henters : EntersForge ref definition s inside)
    (hinside : Building s₀ Γ ref info inside) {span : Span} {inits : List FieldInit}
    (h : initialFields ref info.fields definition span s = .ok inits s') :
    ∃ values, (values.map Prod.fst).Nodup ∧
      List.Forall₂ (Gives inside info) (Tree.forgeStatements definition) values ∧
      (info.fields.filter fun f => values.all (·.1 != f.name)).isEmpty = true ∧
      inits = info.fields.map fun f => ⟨f, values.lookup f.name⟩ := by
  obtain ⟨values, hforge, hmissing, hinits⟩ := initialFields_eq_ok.1 h
  have hbody := (forge_eq_ok henters).1 ⟨s', hforge⟩
  obtain ⟨-, hnodup, new, rfl, hgives⟩ := forgeBody_gives hinside _ [] List.nodup_nil _ _ hbody
  exact ⟨values, hnodup, hgives, hmissing, hinits⟩

/-- An accepted guild has the values that its forge assigns. -/
theorem initialFields_forges (h : Building s₀ Γ ref info s)
    (hfields : (info.fields.map (·.name)).Nodup) (definition : Option Tree.Forge) (span : Span) :
    Ensures (initialFields ref info.fields definition span) s fun inits _ =>
      Forges (Tree.forgeStatements definition) inits := by
  intro inits s' hrun
  obtain ⟨values, hforge, -⟩ := initialFields_eq_ok.1 hrun
  obtain ⟨inside, henters⟩ := entersForge_of_forge hforge
  obtain ⟨s₁, Γ₁, info', hinside, hsame⟩ := henters.building h
  rw [← hsame] at hfields hrun
  obtain ⟨values, hnodup, hgives, hmissing, rfl⟩ := gives_of_initialFields henters hinside hrun
  exact forges_of_gives hfields hnodup hgives hmissing

end Fields

end Check

end Dragon
