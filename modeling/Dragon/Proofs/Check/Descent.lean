import Dragon.Proofs.Check.Forges
import Dragon.Proofs.Type.Containment

/-!
# Objects in the fields of objects

The types of an object's fields are resolved where the object is declared, so they name objects
declared before it or the object itself, and the latter is refused. Numbers are given in the order
of declarations, so the numbers of what an object holds directly are smaller than its own, and no
chain of fields leads back to where it began.
-/
namespace Dragon

/-! ### Declarations of objects -/

namespace Tree

/-- A type that can only be an object: a name that no primitive type has. -/
def TypeExpr.namesObject : TypeExpr → Bool
  | .named name _ => (Prim.ofName? name).isNone
  | .list .. | .optional .. | .function .. => false

end Tree

namespace Typed

/-- An object that is declared anywhere in a program has a field whose type is an object. -/
def Program.Holds (p : Program) (id part : Nat) : Prop :=
  ∃ o ∈ p.objectDecls, o.ref.id = id ∧
    ∃ f ∈ o.fields, ∃ ref, f.field.type = .object ref ∧ ref.id = part

/-- Fields that hold only objects with a smaller number. -/
def Descending (id : Nat) (fields : List Field) : Prop :=
  ∀ f ∈ fields, ∀ ref, f.type = .object ref → ref.id < id

end Typed

/-- A field keeps its name, has the type that is written for it, and is an object exactly where one
is written. -/
structure DeclaresField (d : Tree.FieldDef) (f : Field) : Prop where
  name : f.name = d.name
  type : ∃ s, Check.resolve d.type s = .ok f.type s
  object : f.type.object?.isSome = d.type.namesObject

/-- A declared object is the one that was written, with its fields in order and none of them twice.
A guild has the values of its forge, which does nothing but assign them. -/
structure DeclaresObject (d : Tree.ObjectDef) (o : Typed.ObjectDecl) : Prop where
  name : o.ref.name = d.name
  fields : List.Forall₂ DeclaresField d.fields (o.fields.map (·.field))
  nodup : (d.fields.map (·.name)).Nodup
  matter : d.forge = none → o.kind = .matter
  guild : ∀ body, d.forge = some body → o.kind = .guild ∧ Check.Forges body o.fields

namespace Check

open Typed

variable {s s₀ : State} {Γ : Context} {ref : ObjectRef}
  {info : ObjectInfo}

/-! ### Fields -/

/-- An object type is written as a name, and is one that was declared. -/
theorem resolve_object (valid : Valid s Γ) (t : Tree.TypeExpr) :
    Yields (resolve t) s fun type => type.object?.isSome = t.namesObject ∧
      ∀ ref, type = .object ref → ref.id < s.next := by
  cases t with
  | named name span =>
    unfold resolve
    split
    next p hprim =>
      exact .pure ⟨by simp [Ty.object?, Tree.TypeExpr.namesObject, hprim], by simp⟩
    next hprim =>
      refine (Yields.lookup name).bind fun symbol hsymbol => ?_
      split
      · exact .fail _ _
      next ref =>
        refine .pure ⟨by simp [Ty.object?, Tree.TypeExpr.namesObject, hprim], ?_⟩
        rintro ref' ⟨⟩
        obtain ⟨info, hinfo⟩ := valid.declared ref (valid.lookup hsymbol.symm)
        exact valid.lt_next hinfo
      · exact .fail _ _
  | list inner span | optional inner span =>
    exact (resolve_aligned inner).bind fun _ _ => .pure ⟨rfl, by simp⟩
  | function params result span =>
    exact (resolveAll_aligned params).bind fun _ _ => (resolve_aligned result).bind fun _ _ =>
      .pure ⟨rfl, by simp⟩

/-- While the fields of an object are added, its own number is the last one that was given. -/
theorem addFields_descending (h : Building s₀ Γ ref info s) (hnext : s.next = ref.id + 1)
    (definitions : List Tree.FieldDef) :
    Ensures (addFields ref definitions) s fun _ s' => ∃ added,
      s'.objects.get? ref.id = some { info with fields := info.fields ++ added } ∧
      Descending (ref.id + 1) added ∧ List.Forall₂ DeclaresField definitions added := by
  induction definitions generalizing s info with
  | nil => exact .pure ⟨[], by simpa using h.entry, by simp [Descending], .nil⟩
  | cons d rest ih =>
    refine h.objectInfo.ensures fun known _ => Yields.require.ensures fun _ _ => ?_
    have hresolve := Ensures.run.both
      (Ensures.both (resolve_aligned d.type) (resolve_object h.valid d.type))
    refine .bind (hresolve.mono fun t s₁ ht => ?_)
    obtain ⟨hrun, ⟨rfl, haligned⟩, -, hobject, hbefore⟩ := ht
    refine Yields.require.ensures fun _ _ => .bind (.modify ?_)
    have hbuilt := h.modify
      (fun o => { o with fields := o.fields ++ [⟨ref.id, o.fields.length, d.name, t⟩] })
      (fun _ => rfl) fun o ho => ho.addField haligned
    refine (ih hbuilt hnext).mono fun _ s' ⟨added, hentry, hadded, hdeclares⟩ => ?_
    refine ⟨⟨ref.id, info.fields.length, d.name, t⟩ :: added, by simpa using hentry, ?_,
      .cons ⟨rfl, ⟨_, hrun⟩, hobject⟩ hdeclares⟩
    exact List.forall_mem_cons.2 ⟨hnext ▸ hbefore, hadded⟩

/-- When fields are resolved, only objects with smaller numbers have names. -/
theorem objectFields_descending (h : Building s₀ Γ ref info s) (hnext : s.next = ref.id + 1)
    (hempty : info.fields = []) (definitions : List Tree.FieldDef) (span : Span) :
    Ensures (objectFields ref definitions span) s fun fields _ =>
      Descending ref.id fields ∧ List.Forall₂ DeclaresField definitions fields := by
  refine .bind ((addFields_descending h hnext definitions).mono
    fun _ s₁ ⟨added, hentry, hadded, hdeclares⟩ => ?_)
  rw [hempty, List.nil_append] at hentry
  refine .bind (.get (Yields.require.ensures fun _ hcontains => ?_))
  refine (Yields.objectInfo ref).ensures fun known hknown => .pure ?_
  rw [hknown, hentry]
  refine ⟨fun f hf ref' href => ?_, hdeclares⟩
  have hle : ref'.id < ref.id + 1 := hadded f hf ref' href
  -- The object itself is excluded, since it would contain itself.
  have hne : ref'.id ≠ ref.id := by
    intro heq
    have hloop : s₁.objects.Holds ref.id ref.id := ⟨_, hentry, f, hf, ref', href, heq⟩
    rw [Objects.selfContaining_of_holds hloop] at hcontains
    cases hcontains
  omega

theorem declareObject_next (name : String) (parameters : Option (List ForgeParam)) (span : Span) :
    Ensures (declareObject name parameters span) s fun ref s' =>
      s'.next = ref.id + 1 ∧ ref.name = name :=
  .bind (fresh_ensures (.bind (.modify (.bind (declare_ensures fun _ _ => .pure ⟨rfl, rfl⟩)))))

/-! ### Statements -/

/-- A declared object is the one that was written, and holds only objects with a smaller number. -/
def Descends (d : Tree.ObjectDef) (o : ObjectDecl) : Prop :=
  DeclaresObject d o ∧ Descending o.ref.id (o.fields.map (·.field))

/-- An object as it is declared. Its fields are those that are written, no two of them with the same
name, and they hold only objects with a smaller number. -/
structure DeclaresFields (name : String) (definitions : List Tree.FieldDef) (ref : ObjectRef)
    (fields : List Field) : Prop where
  name : ref.name = name
  written : List.Forall₂ DeclaresField definitions fields
  nodup : (fields.map (·.name)).Nodup
  descending : Descending ref.id fields

theorem declareFields_ensures {α : Type} {name : String} {parameters : Option (List ForgeParam)}
    {definitions : List Tree.FieldDef} {span : Span} {f : ObjectRef → List Field → Check α}
    {R : α → State → Prop} (valid : Valid s Γ) (hparameters : ∀ ps, parameters = some ps → ps = [])
    (hf : ∀ ref fields s',
      Building s (Γ.bind [.object ref]) ref ⟨ref, fields, parameters, []⟩ s' →
      DeclaresFields name definitions ref fields → Ensures (f ref fields) s' R) :
    Ensures (declareObject name parameters span >>= fun ref =>
      objectFields ref definitions span >>= f ref) s R := by
  have hdeclare := (declareObject_ensures valid name parameters span hparameters).both
    (declareObject_next name parameters span)
  refine .bind (hdeclare.mono fun ref s₁ ⟨hbuilt, hnext, hname⟩ => ?_)
  have hfields := (objectFields_ensures hbuilt List.nodup_nil definitions span).both
    (objectFields_descending hbuilt hnext rfl definitions span)
  refine .bind (hfields.mono fun fields s₂ ⟨⟨hbuilt, hnodup⟩, hdescending, hdeclares⟩ => ?_)
  exact hf ref fields s₂ hbuilt ⟨hname, hdeclares, hnodup, hdescending⟩

theorem names_of_declares {definitions : List Tree.FieldDef} {fields : List Field}
    (h : List.Forall₂ DeclaresField definitions fields) :
    fields.map (·.name) = definitions.map (·.name) := by
  induction h with
  | nil => rfl
  | cons hfield _ ih => rw [List.map_cons, List.map_cons, hfield.name, ih]

theorem DeclaresFields.descends {name : String} {definitions : List Tree.FieldDef}
    {fields : List Field} (h : DeclaresFields name definitions ref fields) {inits : List FieldInit}
    (hinits : inits.map (·.field) = fields) {kind : ObjectKind}
    {forge : Option (List Tree.Stmt)} (hmatter : forge = none → kind = .matter)
    (hguild : ∀ body, forge = some body → kind = .guild ∧ Forges body inits) :
    List.Forall₂ Descends [⟨name, definitions, forge⟩] [⟨kind, ref, inits⟩] := by
  have hnodup : (definitions.map (·.name)).Nodup := names_of_declares h.written ▸ h.nodup
  subst hinits
  exact .cons ⟨⟨h.name, h.written, hnodup, hmatter, hguild⟩, h.descending⟩ .nil

/-- What one statement declares, apart from those in it. -/
theorem stmt_descends (valid : Valid s Γ) (t : Tree.Stmt) :
    Ensures (stmt t) s fun st _ => List.Forall₂ Descends t.objectDef st.objectDecl := by
  cases t with
  | matter name definitions span =>
    exact declareFields_ensures valid (by simp) fun ref fields s₁ _ h =>
      .pure (h.descends (by simp [Function.comp_def]) (fun _ => rfl) nofun)
  | guild name definitions definition methodDefs span =>
    refine declareFields_ensures valid (by simp) fun ref fields s₁ hbuilt h => ?_
    refine .bind ((addMethods_ensures hbuilt methodDefs (by simp)).mono fun _ s₂ h₂ => ?_)
    obtain ⟨funcs, hbuilt, -, -⟩ := h₂
    have hinitial := (initialFields_ensures hbuilt rfl h.nodup definition span).both
      (initialFields_forges hbuilt h.nodup definition span)
    refine .bind (hinitial.mono fun inits s₃ h₃ => .next fun _ _ => .next fun _ _ => .pure ?_)
    obtain ⟨⟨parameters, -, hinits, -⟩, hforges⟩ := h₃
    refine h.descends hinits nofun ?_
    rintro body ⟨⟩
    exact ⟨rfl, hforges⟩
  | _ =>
    refine (stmt_makes valid _).mono fun st s₁ h₁ => ?_
    cases h₁ <;> exact .nil

theorem Becomes.descends {t : Tree.Stmt} {st : Stmt} (h : Becomes t st) :
    List.Forall₂ Descends t.objectDef st.objectDecl := by
  obtain ⟨s, Γ, s', valid, hrun⟩ := h
  exact stmt_descends valid t st s' hrun

end Check

/-! ### Chains of fields -/

namespace Typed.Program

variable {p : Program} {a b : Nat}

/-- Down a chain of objects in fields the numbers become smaller. -/
theorem lt_of_transGen_holds
    (h : ∀ o ∈ p.objectDecls, Descending o.ref.id (o.fields.map (·.field)))
    (hchain : Relation.TransGen p.Holds a b) : b < a := by
  have hstep {a b : Nat} (hab : p.Holds a b) : b < a := by
    obtain ⟨o, ho, rfl, f, hf, ref, href, rfl⟩ := hab
    exact h o ho f.field (List.mem_map_of_mem hf) ref href
  induction hchain with
  | single hab => exact hstep hab
  | tail _ hbc ih => exact Nat.lt_trans (hstep hbc) ih

end Typed.Program

/-- The matters and guilds of an accepted program, wherever they are declared, are those of its
tree, and no chain of fields that hold objects directly leads from one of them back to it. -/
theorem holds_acyclic_of_accepted (tree : Tree.Program) (program : Typed.Program)
    (haccepted : (Checked.ofTree tree).result = .ok program) :
    List.Forall₂ DeclaresObject tree.objectDefs program.objectDecls ∧
      ∀ id, ¬ Relation.TransGen program.Holds id id := by
  have hdescends : List.Forall₂ Check.Descends tree.objectDefs program.objectDecls :=
    List.rel_flatMap (sound_of_accepted haccepted).2 fun t st hst => hst.descends
  refine ⟨hdescends.imp fun _ _ h => h.1, fun id hcycle => ?_⟩
  refine Nat.lt_irrefl id (Typed.Program.lt_of_transGen_holds (fun o ho => ?_) hcycle)
  obtain ⟨d, -, -, hdescending⟩ := exists_of_mem_right hdescends ho
  exact hdescending

/-- Objects in a function and in a method, with fields that are the objects before them, and objects
that reach themselves through a list and through an optional. -/
def satchels : String :=
  "matter A \x7b next: A? \x7d don f() \x7b guild B \x7b a: A; more: [B];" ++
  " forge(a: A) \x7b mine.a = a; mine.more = []; \x7d" ++
  " don m() \x7b matter C \x7b b: B, a: A \x7d \x7d \x7d \x7d"

theorem holds_acyclic_satchels :
    ∃ tree program, Tree.Program.ofSource "" satchels = .ok tree ∧
      (Checked.ofTree tree).result = .ok program ∧
      program.objectDecls.map (·.ref.name) = ["A", "B", "C"] ∧
      List.Forall₂ DeclaresObject tree.objectDefs program.objectDecls ∧
      ∀ id, ¬ Relation.TransGen program.Holds id id := by
  have haccepts : accepts satchels (·.objectDecls.map (·.ref.name) == ["A", "B", "C"]) = true := by
    refine Chars.accepts (.append (.append .lit .lit) .lit) ?_
    decide +kernel
  obtain ⟨tree, program, htree, hprogram, hnames⟩ := exists_of_accepts haccepts
  exact ⟨tree, program, htree, hprogram, beq_iff_eq.1 hnames,
    holds_acyclic_of_accepted tree program hprogram⟩

end Dragon
