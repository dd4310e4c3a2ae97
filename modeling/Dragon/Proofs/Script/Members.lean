import Dragon.Proofs.Script.Scoped

/-!
# Members of classes

Methods keep their names in a script, and no two methods of a guild have the same one. Every class
has a constructor beside them, of which the language knows nothing: a guild may have a method by
that very name, and then its class has two members that are called so.
-/
namespace Dragon

namespace Tree

/-- The names of the methods of a matter or a guild. -/
def Stmt.methodNames? : Stmt → Option (List String)
  | .matter .. => some []
  | .guild _ _ _ methods _ => some (methods.map (·.name))
  | _ => none

/-- The methods of all matters and guilds of a program. -/
def Program.methodNames (p : Program) : List (List String) := p.inside.filterMap Stmt.methodNames?

end Tree

namespace Typed

def Stmt.methodNames? : Stmt → Option (List String)
  | .object _ _ _ _ methods => some (methods.map (·.func.name))
  | _ => none

theorem Stmt.methodNames?_optimized (s : Stmt) : s.optimized.methodNames? = s.methodNames? := by
  cases s with
  | object kind ref fields parameters methods =>
    cases kind with
    | matter => rfl
    | guild =>
      have hnames := congrArg (List.map Func.name) (func_optimizeMethods methods)
      rw [List.map_map, List.map_map] at hnames
      exact congrArg some hnames
  | _ => rfl

end Typed

namespace Script

/-- The names of the members of a class, the constructor included. -/
def Stmt.members? : Stmt → Option (List String)
  | .type _ _ _ methods => some ("constructor" :: methods.map Method.name)
  | _ => none

/-- The members of all classes of a script. -/
def classMembers (script : List Stmt) : List (List String) :=
  (blockInside script).filterMap Stmt.members?

theorem Transcribed.members {final : Names} {s : Typed.Stmt} {w : Stmt}
    (h : Transcribed final s w) : w.members? = s.methodNames?.map ("constructor" :: ·) := by
  cases h with
  | object hnames _ => exact congrArg (fun names => some ("constructor" :: names)) hnames
  | _ => rfl

end Script

open Typed

namespace Check

variable {t : Tree.Stmt} {s : Stmt}

theorem Makes.methodNames (h : Makes t s) : s.methodNames? = t.methodNames? := by
  cases h with
  | guild _ hnames _ => exact congrArg some hnames
  | _ => rfl

theorem Makes.nodup_methodNames (h : Makes t s) {names : List String}
    (hnames : t.methodNames? = some names) : names.Nodup := by
  cases h with
  | matter =>
    cases hnames
    exact List.nodup_nil
  | guild _ _ hnodup =>
    cases hnames
    exact hnodup
  | _ => cases hnames

end Check

theorem ComesTo.methodNames {optimize : Bool} {t : Tree.Stmt} {s : Stmt}
    (h : ComesTo optimize t s) : s.methodNames? = t.methodNames? := by
  obtain ⟨s₀, hbecomes, rfl⟩ := h
  have hnames := hbecomes.makes.methodNames
  cases optimize with
  | false => exact hnames
  | true => exact s₀.methodNames?_optimized.trans hnames

/-- No two methods of a guild have the same name. -/
theorem nodup_methodNames_of_accepted {tree : Tree.Program} {program : Program}
    (haccepted : (Checked.ofTree tree).result = .ok program) :
    ∀ names ∈ tree.methodNames, names.Nodup := by
  intro names hnames
  obtain ⟨t, ht, hnames⟩ := List.mem_filterMap.1 hnames
  obtain ⟨s, -, hbecomes⟩ := exists_of_mem_left (sound_of_accepted haccepted).2 ht
  exact hbecomes.makes.nodup_methodNames hnames

theorem filterMap_eq_map {α β γ δ : Type} {f : α → Option γ} {g : β → Option δ} {h : γ → δ}
    {as : List α} {bs : List β} (hrel : List.Forall₂ (fun a b => g b = (f a).map h) as bs) :
    bs.filterMap g = (as.filterMap f).map h := by
  induction hrel with
  | nil => rfl
  | cons hab _ ih =>
    rw [List.filterMap_cons, List.filterMap_cons, hab, ih]
    cases f _ <;> rfl

/-- The classes in the script of an accepted program, as it is or optimized, are those of its
matters and guilds or some of them. Their members are the constructor and the methods; methods have
different names, so that all members have, unless there is a method called `constructor`. -/
theorem members_of_accepted {tree : Tree.Program} {program : Program}
    (haccepted : (Checked.ofTree tree).result = .ok program) (optimize : Bool) :
    ∃ script kept,
      Script.ofProgram (if optimize then program.optimize.value else program) = .ok script ∧
      kept.Sublist tree.methodNames ∧ (optimize = false → kept = tree.methodNames) ∧
      Script.classMembers script = kept.map ("constructor" :: ·) ∧
      (∀ names ∈ kept, names.Nodup) ∧
      ((∀ members ∈ Script.classMembers script, members.Nodup) ↔
        ∀ names ∈ kept, "constructor" ∉ names) := by
  obtain ⟨kept, hkept, hall, hcomes⟩ := exists_inside_of_accepted haccepted optimize
  obtain ⟨script, names, hrun, -, htranscribed⟩ :=
    exists_transcript_of_accepted haccepted optimize
  have hmembers : Script.classMembers script =
      (kept.filterMap Tree.Stmt.methodNames?).map ("constructor" :: ·) := by
    refine filterMap_eq_map (forall₂_comp (fun t s w ht hs => ?_) hcomes htranscribed)
    rw [Script.Transcribed.members hs, ht.methodNames]
  have hsublist : (kept.filterMap Tree.Stmt.methodNames?).Sublist tree.methodNames :=
    hkept.filterMap _
  have hnodup : ∀ names ∈ kept.filterMap Tree.Stmt.methodNames?, names.Nodup :=
    fun names hnames => nodup_methodNames_of_accepted haccepted names (hsublist.subset hnames)
  refine ⟨script, _, Script.ofProgram_of_ofBlock hrun, hsublist, fun hoptimize => ?_, hmembers, hnodup, ?_⟩
  · rw [hall hoptimize]
    rfl
  · rw [hmembers, List.forall_mem_map]
    refine forall₂_congr fun names hnames => ?_
    rw [List.nodup_cons, and_iff_left (hnodup names hnames)]

/-- A matter, a guild with methods, and another one in a branch that is never reached. -/
def guildhalls : String :=
  "matter Stone \x7b mass: int \x7d guild Hall \x7b don open() \x7b\x7d don close() \x7b\x7d" ++
  " \x7d perchance shant \x7b guild Ruin \x7b don open() \x7b\x7d \x7d \x7d"

theorem members_guildhalls :
    ∃ tree program, Tree.Program.ofSource "" guildhalls = .ok tree ∧
      (Checked.ofTree tree).result = .ok program ∧
      tree.methodNames = [[], ["open", "close"], ["open"]] ∧
      ∃ script kept, Script.ofProgram program.optimize.value = .ok script ∧
        kept.Sublist tree.methodNames ∧ (true = false → kept = tree.methodNames) ∧
        Script.classMembers script = kept.map ("constructor" :: ·) ∧
        (∀ names ∈ kept, names.Nodup) ∧
        ((∀ members ∈ Script.classMembers script, members.Nodup) ↔
          ∀ names ∈ kept, "constructor" ∉ names) := by
  have hany : (Tree.Program.ofSource "" guildhalls).toOption.any (fun tree =>
      tree.methodNames == [[], ["open", "close"], ["open"]] &&
        (Checked.ofTree tree).result.toOption.any fun _ => true) = true := by
    have hchars : Chars guildhalls _ := .append .lit .lit
    rw [hchars.tree]
    decide +kernel
  obtain ⟨tree, htree, htest⟩ := exists_of_any hany
  obtain ⟨hnames, htest⟩ := Bool.and_eq_true_iff.1 htest
  obtain ⟨program, hprogram, -⟩ := exists_of_any htest
  exact ⟨tree, program, htree, hprogram, beq_iff_eq.1 hnames, members_of_accepted hprogram true⟩

/-- A guild with a method that is called like the constructor of its class. -/
def twins : String := "guild G \x7b don constructor() \x7b\x7d \x7d"

/-- The class has two members by the same name. -/
theorem members_clash :
    ∃ tree program script, Tree.Program.ofSource "" twins = .ok tree ∧
      (Checked.ofTree tree).result = .ok program ∧ Script.ofProgram program = .ok script ∧
      Script.classMembers script = [["constructor", "constructor"]] := by
  have haccepts : accepts twins (fun program =>
      (Script.ofProgram program).toOption.any fun script =>
        Script.classMembers script == [["constructor", "constructor"]]) = true := by
    refine Chars.accepts .lit ?_
    decide +kernel
  obtain ⟨tree, program, htree, hprogram, htest⟩ := exists_of_accepts haccepts
  obtain ⟨script, hscript, hmembers⟩ := exists_of_any htest
  exact ⟨tree, program, script, htree, hprogram, hscript, beq_iff_eq.1 hmembers⟩

end Dragon
