import Dragon.Proofs.Script.Scoped

/-!
# Constructors in scripts

The constructor of a guild sets its fields in the order in which they are declared, each with the
value that the forge gives it. The order of the forge itself does not matter, so that the
constructor follows it only if the forge lists the fields as they are declared.
-/
namespace Dragon

/-! ### Optimization -/

namespace Typed

/-- An object whose values, if it is a guild, are changed. -/
def ObjectDecl.change (change : Expr → Expr) (o : ObjectDecl) : ObjectDecl :=
  match o.kind with
  | .matter => o
  | .guild => { o with fields := o.fields.map fun f => ⟨f.field, f.value.map change⟩ }

theorem ObjectDecl.change_id (o : ObjectDecl) : o.change id = o := by
  obtain ⟨kind, ref, fields⟩ := o
  cases kind <;> simp [ObjectDecl.change]

theorem ObjectDecl.fields_change (change : Expr → Expr) (o : ObjectDecl) :
    (o.change change).fields.map (·.field) = o.fields.map (·.field) := by
  obtain ⟨kind, ref, fields⟩ := o
  cases kind <;> simp [ObjectDecl.change]

theorem Stmt.objectDecl_optimized (s : Stmt) :
    s.optimized.objectDecl = s.objectDecl.map (ObjectDecl.change (·.optimize.value)) := by
  cases s with
  | object kind =>
    cases kind <;> simp [Stmt.optimized, Stmt.objectDecl, ObjectDecl.change, optimizeFields_eq]
  | _ => rfl

end Typed

/-! ### Scripts -/

namespace Script

/-- The constructor that is written for a matter or a guild. -/
def Stmt.constructor : Stmt → List Constructor
  | .type _ params settings _ => [⟨params, settings⟩]
  | _ => []

/-- The constructors of a script, at any depth. -/
def blockConstructors (script : List Stmt) : List Constructor :=
  (blockInside script).flatMap Stmt.constructor

theorem Transcribed.sets {final : Names} {s : Typed.Stmt} {w : Stmt} (h : Transcribed final s w) :
    List.Forall₂ (Sets final) s.objectDecl w.constructor := by
  cases h with
  | object _ hsets => exact .cons hsets .nil
  | _ => exact .nil

end Script

/-! ### Accepted programs -/

open Script

/-- A constructor of a matter or a guild, as it is written and as it is declared. It sets the fields
in the order of their declaration. A matter's has a parameter for each field, to which it sets it.
The forge of a guild does nothing but to assign each field once, and the constructor sets them to
what becomes of the values there, once they are checked for the declared types and changed. -/
structure Constructs (names : Names) (change : Typed.Expr → Typed.Expr) (d : Tree.ObjectDef)
    (o : Typed.ObjectDecl) (k : Constructor) : Prop where
  fields : List.Forall₂ DeclaresField d.fields (o.fields.map (·.field))
  order : k.settings.map (·.field) = d.fields.map (·.name)
  nodup : (d.fields.map (·.name)).Nodup
  matter : d.forge = none → k.settings.map (·.value) = k.params.map .name
  forge : ∀ body, d.forge = some body →
    (∀ t ∈ body, t.setting?.isSome = true) ∧
    ((body.filterMap Tree.Stmt.setting?).map Prod.fst).Perm (d.fields.map (·.name)) ∧
    ∀ setting ∈ k.settings, ∃ f ∈ o.fields, f.field.name = setting.field ∧ ∃ v value state,
      (setting.field, v) ∈ body.filterMap Tree.Stmt.setting? ∧
      Check.valueFor f.field.type v state = .ok value state ∧ f.value = some (change value) ∧
      ofExpr (change value) names = .ok (setting.value, names)

theorem setsFields_names {names : Names} {fields : List Typed.FieldInit} {settings : List Setting}
    (h : List.Forall₂ (SetsField names) fields settings) :
    settings.map (·.field) = fields.map (·.field.name) := by
  induction h with
  | nil => rfl
  | cons hfield _ ih => rw [List.map_cons, List.map_cons, hfield.1, ih]

theorem constructs_of_sets {names : Names} {change : Typed.Expr → Typed.Expr} {d : Tree.ObjectDef}
    {o : Typed.ObjectDecl} {k : Constructor} (hdeclares : DeclaresObject d o)
    (hsets : Sets names (o.change change) k) : Constructs names change d (o.change change) k := by
  have hfields : List.Forall₂ DeclaresField d.fields ((o.change change).fields.map (·.field)) :=
    o.fields_change change ▸ hdeclares.fields
  have hnames : (o.change change).fields.map (·.field.name) = d.fields.map (·.name) := by
    rw [← Check.names_of_declares hfields, List.map_map]
    rfl
  obtain ⟨kind, ref, fields⟩ := o
  cases kind with
  | matter =>
    obtain ⟨horder, hvalues⟩ := hsets
    refine ⟨hfields, horder.trans hnames, hdeclares.nodup, fun _ => hvalues, fun body hbody => ?_⟩
    cases (hdeclares.guild body hbody).1
  | guild =>
    have hsets : List.Forall₂ (SetsField names)
        (fields.map fun f => ⟨f.field, f.value.map change⟩) k.settings := hsets
    refine ⟨hfields, (setsFields_names hsets).trans hnames, hdeclares.nodup, fun hforge => ?_,
      fun body hbody => ?_⟩
    · cases hdeclares.matter hforge
    obtain ⟨-, hsettings, honce, hvalues⟩ := hdeclares.guild body hbody
    refine ⟨hsettings, ?_, fun setting hsetting => ?_⟩
    · rw [← hnames]
      simpa [Typed.ObjectDecl.change, Function.comp_def] using honce
    obtain ⟨f', hf', hname, e, he, hrun⟩ := exists_of_mem_right hsets hsetting
    refine ⟨f', hf', hname.symm, ?_⟩
    obtain ⟨f, hf, rfl⟩ := List.mem_map.1 hf'
    obtain ⟨v, value, state, hv, hvalue, hchecked⟩ := hvalues f hf
    obtain rfl : change value = e := by simpa [hvalue] using he
    exact ⟨v, value, state, hname ▸ hv, hchecked, he, hrun⟩

theorem ComesTo.declares {optimize : Bool} {t : Tree.Stmt} {s : Typed.Stmt}
    (h : ComesTo optimize t s) :
    List.Forall₂ (fun d o => ∃ o₀ : Typed.ObjectDecl, DeclaresObject d o₀ ∧
      o = o₀.change (if optimize then (·.optimize.value) else id)) t.objectDef s.objectDecl := by
  obtain ⟨s₀, hbecomes, rfl⟩ := h
  have hdeclares := hbecomes.descends
  cases optimize with
  | false => exact hdeclares.imp fun d o hd => ⟨o, hd.1, o.change_id.symm⟩
  | true =>
    show List.Forall₂ _ t.objectDef s₀.optimized.objectDecl
    rw [s₀.objectDecl_optimized]
    exact List.forall₂_map_right_iff.2 (hdeclares.imp fun d o hd => ⟨o, hd.1, rfl⟩)

/-- Two relations in a row, with the pairs of the first one. -/
theorem forall₂_zip {α β γ : Type} {R : α → β → Prop} {S : β → γ → Prop} {as : List α}
    {bs : List β} {cs : List γ} (hR : List.Forall₂ R as bs) (hS : List.Forall₂ S bs cs) :
    List.Forall₂ (fun p c => R p.1 p.2 ∧ S p.2 c) (as.zip bs) cs := by
  induction hR generalizing cs with
  | nil =>
    cases hS
    exact .nil
  | cons hab _ ih =>
    cases hS with
    | cons hbc hS => exact .cons ⟨hab, hbc⟩ (ih hS)

/-- The script of an accepted program, or of what it is optimized to, with its constructors. -/
theorem exists_constructors {tree : Tree.Program} {program : Typed.Program}
    (haccepted : (Checked.ofTree tree).result = .ok program) (optimize : Bool) :
    let p := if optimize then program.optimize.value else program
    ∃ script names objects, ofBlock p.statements ⟨0, []⟩ = .ok (script, names) ∧
      (objects.map Prod.fst).Sublist tree.objectDefs ∧
      (optimize = false → objects.map Prod.fst = tree.objectDefs) ∧
      objects.map Prod.snd = p.objectDecls ∧
      List.Forall₂ (fun d k =>
        Constructs names (if optimize then (·.optimize.value) else id) d.1 d.2 k)
        objects (blockConstructors script) := by
  intro p
  obtain ⟨script, names, hrun, -, htranscribed⟩ :=
    exists_transcript_of_accepted haccepted optimize
  obtain ⟨kept, hkept, hall, hcomes⟩ := exists_inside_of_accepted haccepted optimize
  have hdeclares := List.rel_flatMap hcomes fun t s hs => hs.declares
  have hsets := List.rel_flatMap htranscribed fun s w hw => hw.sets
  have hlength : (kept.flatMap Tree.Stmt.objectDef).length = p.objectDecls.length :=
    hdeclares.length_eq
  refine ⟨script, names, (kept.flatMap Tree.Stmt.objectDef).zip p.objectDecls, hrun, ?_,
    fun h => ?_, List.map_snd_zip hlength.ge, ?_⟩
  · rw [List.map_fst_zip hlength.le]
    exact hkept.flatMap _
  · rw [List.map_fst_zip hlength.le, hall h]
    rfl
  · refine (forall₂_zip hdeclares hsets).imp fun d k hd => ?_
    obtain ⟨⟨o, hd, ho⟩, hk⟩ := hd
    rw [ho] at hk ⊢
    exact constructs_of_sets hd hk

/-- The constructors in the script of an accepted program are those of its matters and guilds, one
by one and at any depth. They set the fields in the order of their declaration, with the values that
the forges assign, or for a matter with its parameters. Optimization may drop some of them, and
optimizes the values in the others. -/
theorem constructors_of_accepted {tree : Tree.Program} {program : Typed.Program}
    (haccepted : (Checked.ofTree tree).result = .ok program) :
    (∃ script names objects, ofBlock program.statements ⟨0, []⟩ = .ok (script, names) ∧
      objects.map Prod.fst = tree.objectDefs ∧ objects.map Prod.snd = program.objectDecls ∧
      List.Forall₂ (fun d k => Constructs names id d.1 d.2 k) objects
        (blockConstructors script)) ∧
    ∃ script names objects,
      ofBlock program.optimize.value.statements ⟨0, []⟩ = .ok (script, names) ∧
      (objects.map Prod.fst).Sublist tree.objectDefs ∧
      objects.map Prod.snd = program.optimize.value.objectDecls ∧
      List.Forall₂ (fun d k => Constructs names (·.optimize.value) d.1 d.2 k) objects
        (blockConstructors script) := by
  obtain ⟨script, names, objects, hscript, -, hall, hdecls, hkept⟩ :=
    exists_constructors haccepted false
  obtain ⟨script', names', objects', hscript', hsublist, -, hdecls', hkept'⟩ :=
    exists_constructors haccepted true
  exact ⟨⟨script, names, objects, hscript, hall rfl, hdecls, hkept⟩,
    script', names', objects', hscript', hsublist, hdecls', hkept'⟩

/-- A guild whose forge lists the fields the other way round, and reads one that it has just
assigned. -/
def backwards : String :=
  "guild P \x7b a: int; b: int; forge(n: int) \x7b mine.b = n; mine.a = mine.b; \x7d \x7d"

/-- The names of the fields in the order of the forges. -/
def assignedNames (tree : Tree.Program) : List (List String) :=
  tree.objectDefs.map fun d =>
    ((d.forge.getD []).filterMap Tree.Stmt.setting?).map Prod.fst

/-- The names of the fields in the order of the constructors. -/
def setNames (script : List Script.Stmt) : List (List String) :=
  (blockConstructors script).map (·.settings.map (·.field))

theorem constructors_backwards :
    ∃ tree program, Tree.Program.ofSource "" backwards = .ok tree ∧
      (Checked.ofTree tree).result = .ok program ∧
      (∃ script names objects, ofBlock program.statements ⟨0, []⟩ = .ok (script, names) ∧
        objects.map Prod.fst = tree.objectDefs ∧ objects.map Prod.snd = program.objectDecls ∧
        List.Forall₂ (fun d k => Constructs names id d.1 d.2 k) objects
          (blockConstructors script)) ∧
      ∃ script names objects,
        ofBlock program.optimize.value.statements ⟨0, []⟩ = .ok (script, names) ∧
        (objects.map Prod.fst).Sublist tree.objectDefs ∧
        objects.map Prod.snd = program.optimize.value.objectDecls ∧
        List.Forall₂ (fun d k => Constructs names (·.optimize.value) d.1 d.2 k) objects
          (blockConstructors script) := by
  have haccepts : accepts backwards (fun _ => true) = true := by
    refine Chars.accepts .lit ?_
    decide +kernel
  obtain ⟨tree, program, htree, hprogram, -⟩ := exists_of_accepts haccepts
  exact ⟨tree, program, htree, hprogram, constructors_of_accepted hprogram⟩

/-- The constructor does not follow the forge. -/
theorem constructor_out_of_order :
    ∃ tree program script, Tree.Program.ofSource "" backwards = .ok tree ∧
      (Checked.ofTree tree).result = .ok program ∧ ofProgram program = .ok script ∧
      assignedNames tree = [["b", "a"]] ∧ setNames script = [["a", "b"]] := by
  have hany : (Tree.Program.ofSource "" backwards).toOption.any (fun tree =>
      assignedNames tree == [["b", "a"]] && (Checked.ofTree tree).result.toOption.any fun program =>
        (ofProgram program).toOption.any fun script => setNames script == [["a", "b"]]) = true := by
    have hchars : Chars backwards _ := .lit
    rw [hchars.tree]
    decide +kernel
  obtain ⟨tree, htree, htest⟩ := exists_of_any hany
  obtain ⟨hassigned, htest⟩ := Bool.and_eq_true_iff.1 htest
  obtain ⟨program, hprogram, htest⟩ := exists_of_any htest
  obtain ⟨script, hscript, hset⟩ := exists_of_any htest
  exact ⟨tree, program, script, htree, hprogram, hscript, beq_iff_eq.1 hassigned,
    beq_iff_eq.1 hset⟩

end Dragon
