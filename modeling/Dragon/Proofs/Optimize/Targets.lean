import Dragon.Proofs.Optimize.Inside

/-!
# Where values are stored

The target of an accepted assignment, increment or decrement is a variable, an element of a list or
a field of an object, in the program as it is and optimized, with one exception: the object itself.
An object can change, so `mine` passes for a target wherever an object may be assigned, and the
script then assigns to `this`.
-/
namespace Dragon

/-- How a statement stores a value. -/
inductive Storing where
  | assign | increment | decrement
  deriving DecidableEq, Repr

namespace Tree

/-- How and where a statement stores a value. -/
def Stmt.target? : Stmt → Option (Storing × Expr)
  | .assign target _ _ => some (.assign, target)
  | .increment target _ => some (.increment, target)
  | .decrement target _ => some (.decrement, target)
  | _ => none

/-- The targets of a program, at every depth. -/
def Program.targets (p : Program) : List (Storing × Expr) := p.inside.filterMap Stmt.target?

end Tree

namespace Typed

def Stmt.target? : Stmt → Option (Storing × Expr)
  | .assign target _ => some (.assign, target)
  | .increment target => some (.increment, target)
  | .decrement target => some (.decrement, target)
  | _ => none

def Program.targets (p : Program) : List (Storing × Expr) := p.inside.filterMap Stmt.target?

theorem Stmt.target?_optimized (s : Stmt) :
    s.optimized.target? = s.target?.map fun t => (t.1, t.2.optimize.value) := by
  cases s with
  | object kind ref fields parameters methods => cases kind <;> rfl
  | _ => rfl

/-- A variable, an element of a list or a field of an object that is known to be there. -/
def Expr.isPlace : Expr → Bool
  | .var _ => true
  | .subscript collection _ _ => collection.type.element?.isSome
  | .member _ .plain (.field _) _ => true
  | _ => false

end Typed

open Typed

namespace Check

theorem isPlace_of_isMutable {e : Expr} (h : isMutable e = true) : e.isPlace = !e.isSelf := by
  match e with
  | .var _ | .self _ => rfl
  | .subscript collection _ _ =>
    exact (Bool.and_eq_true_iff.1 h).1
  | .member _ .plain (.field _) _ => rfl

/-- What can change is still the same place when it is optimized. -/
theorem isMutable_optimize (e : Expr) (h : isMutable e = true) :
    isMutable e.optimize.value = true ∧ e.optimize.value.type = e.type ∧
      e.optimize.value.isSelf = e.isSelf := by
  match e with
  | .var _ | .self _ | .member _ .plain (.field _) _ => exact ⟨h, rfl, rfl⟩
  | .subscript collection index type =>
    obtain ⟨hlist, hcollection⟩ := Bool.and_eq_true_iff.1 h
    obtain ⟨hmutable, htype, -⟩ := isMutable_optimize collection hcollection
    exact ⟨Bool.and_eq_true_iff.2 ⟨htype ▸ hlist, hmutable⟩, rfl, rfl⟩

end Check

theorem Typed.Expr.eq_self_of_isSelf {T : Objects} {Γ : Context} {e : Expr}
    (h : e.isSelf = true) (hwell : e.WellTyped T Γ) : ∃ ref, e = .self (.object ref) := by
  match e with
  | .self type =>
    obtain ⟨ref, -, rfl⟩ := hwell
    exact ⟨ref, rfl⟩

/-- A target of the source, and the same target in the program. -/
structure Stored (d : Storing × Tree.Expr) (t : Storing × Expr) : Prop where
  storing : t.1 = d.1
  changes : Check.isMutable t.2 = true
  place : t.2.isPlace = !d.2.isMine
  object : d.2.isMine = true → d.1 = .assign ∧ ∃ ref, t.2 = .self (.object ref)

theorem Stored.optimize {d : Storing × Tree.Expr} {storing : Storing} {e : Expr}
    (h : Stored d (storing, e)) : Stored d (storing, e.optimize.value) := by
  obtain ⟨hmutable, -, hself⟩ := Check.isMutable_optimize e h.changes
  refine ⟨h.storing, hmutable, ?_, fun hmine => ?_⟩
  · rw [Check.isPlace_of_isMutable hmutable, hself, ← Check.isPlace_of_isMutable h.changes]
    exact h.place
  · obtain ⟨hassign, ref, rfl⟩ := h.object hmine
    exact ⟨hassign, ref, rfl⟩

/-- Objects are no numbers, so that `mine` is neither incremented nor decremented. -/
theorem Check.Becomes.stored {t : Tree.Stmt} {s : Stmt} (h : Becomes t s) :
    Option.Rel Stored t.target? s.target? := by
  obtain ⟨T, Γ, hwell⟩ := h.wellTyped
  cases h.makes with
  | assign hmutable hself =>
    refine .some ⟨rfl, hmutable, hself ▸ isPlace_of_isMutable hmutable, fun hmine => ⟨rfl, ?_⟩⟩
    exact Expr.eq_self_of_isSelf (hself.trans hmine) hwell.1
  | increment hmutable hself | decrement hmutable hself =>
    refine .some ⟨rfl, hmutable, hself ▸ isPlace_of_isMutable hmutable, fun hmine => ?_⟩
    obtain ⟨ref, rfl⟩ := Expr.eq_self_of_isSelf (hself.trans hmine) hwell.1
    cases hwell.2
  | _ => exact .none

theorem ComesTo.stored {optimize : Bool} {t : Tree.Stmt} {s : Stmt} (h : ComesTo optimize t s) :
    Option.Rel Stored t.target? s.target? := by
  obtain ⟨s₀, hbecomes, rfl⟩ := h
  have hstored := hbecomes.stored
  cases optimize with
  | false => exact hstored
  | true =>
    show Option.Rel Stored t.target? s₀.optimized.target?
    rw [Stmt.target?_optimized]
    generalize t.target? = d, s₀.target? = target at hstored ⊢
    cases hstored with
    | some h => exact .some h.optimize
    | none => exact .none

/-- The targets of an accepted program are those of its source, and after optimization some of
them. -/
theorem exists_targets_of_accepted {tree : Tree.Program} {program : Program}
    (haccepted : (Checked.ofTree tree).result = .ok program) (optimize : Bool) :
    ∃ kept, kept.Sublist tree.targets ∧ (optimize = false → kept = tree.targets) ∧
      List.Forall₂ Stored kept (if optimize then program.optimize.value else program).targets := by
  obtain ⟨kept, hkept, hall, hcomes⟩ := exists_inside_of_accepted haccepted optimize
  refine ⟨kept.filterMap Tree.Stmt.target?, hkept.filterMap _, fun hoptimize => ?_, ?_⟩
  · rw [hall hoptimize]
    rfl
  · exact List.rel_filterMap (fun _ _ h => ComesTo.stored h) hcomes

theorem forall_isPlace_iff {ds : List (Storing × Tree.Expr)} {ts : List (Storing × Expr)}
    (h : List.Forall₂ Stored ds ts) :
    (∀ t ∈ ts, t.2.isPlace = true) ↔ ∀ d ∈ ds, d.2.isMine = false := by
  induction h with
  | nil => simp
  | cons hstored _ ih =>
    rw [List.forall_mem_cons, List.forall_mem_cons, ih, hstored.place, Bool.not_eq_true']

/-- The targets of an accepted program, as it is or optimized, are places unless the source assigns
to `mine` itself, and where it does, the object itself is the target. Nothing else is ever one. -/
theorem targets_of_accepted {tree : Tree.Program} {program : Program}
    (haccepted : (Checked.ofTree tree).result = .ok program) (optimize : Bool) :
    let p := if optimize then program.optimize.value else program
    ∃ kept, kept.Sublist tree.targets ∧ (optimize = false → kept = tree.targets) ∧
      List.Forall₂ (fun d t => t.1 = d.1 ∧ t.2.isPlace = !d.2.isMine ∧
        (d.2.isMine = true → d.1 = .assign ∧ ∃ ref, t.2 = .self (.object ref))) kept p.targets ∧
      ((∀ t ∈ p.targets, t.2.isPlace = true) ↔ ∀ d ∈ kept, d.2.isMine = false) := by
  intro p
  obtain ⟨kept, hkept, hall, hstored⟩ := exists_targets_of_accepted haccepted optimize
  refine ⟨kept, hkept, hall, hstored.imp fun d t h => ?_, forall_isPlace_iff hstored⟩
  exact ⟨h.storing, h.place, h.object⟩

/-- Targets of all three kinds, at the end of chains of fields and elements. One of them is never
reached. -/
def ledgers : String :=
  "guild Row \x7b all: [int]; forge() \x7b mine.all = [1, 2]; \x7d" ++
  " don bump(i: int) \x7b mine.all[i]++; mine.all = [i]; \x7d \x7d" ++
  " thine rows: [Row] = [Row()]; rows[0].all[1]--; rows = []; perchance shant \x7b rows = []; \x7d"

theorem targets_ledgers :
    ∃ tree program, Tree.Program.ofSource "" ledgers = .ok tree ∧
      (Checked.ofTree tree).result = .ok program ∧ program.targets.length = 5 ∧
      let p := program.optimize.value
      ∃ kept, kept.Sublist tree.targets ∧ (true = false → kept = tree.targets) ∧
        List.Forall₂ (fun d t => t.1 = d.1 ∧ t.2.isPlace = !d.2.isMine ∧
          (d.2.isMine = true → d.1 = .assign ∧ ∃ ref, t.2 = .self (.object ref))) kept p.targets ∧
        ((∀ t ∈ p.targets, t.2.isPlace = true) ↔ ∀ d ∈ kept, d.2.isMine = false) := by
  have haccepts : accepts ledgers (·.targets.length == 5) = true := by
    refine Chars.accepts (.append (.append .lit .lit) .lit) ?_
    decide +kernel
  obtain ⟨tree, program, htree, hprogram, hlength⟩ := exists_of_accepts haccepts
  exact ⟨tree, program, htree, hprogram, beq_iff_eq.1 hlength, targets_of_accepted hprogram true⟩

/-- A guild whose method puts another object in the place of the one it is called on. -/
def usurpers : String := "guild G \x7b don f(o: G) \x7b mine = o; \x7d \x7d"

/-- The object itself is a target, and no script can run that assigns to `this`. -/
theorem target_self :
    ∃ tree program script, Tree.Program.ofSource "" usurpers = .ok tree ∧
      (Checked.ofTree tree).result = .ok program ∧
      (∃ t ∈ program.targets, t.2.isPlace = false) ∧ Script.ofProgram program = .ok script ∧
      Script.scriptText script = "\n".intercalate ["class G_1 \x7b", "    constructor() \x7b",
        "    \x7d", "    f(o_2) \x7b", "        this = o_2;", "    \x7d", "\x7d"] := by
  have haccepts : accepts usurpers (fun program =>
      program.targets.any (fun t => !t.2.isPlace) &&
      (Script.ofProgram program).toOption.any fun script => Script.scriptText script ==
        "\n".intercalate ["class G_1 \x7b", "    constructor() \x7b", "    \x7d",
          "    f(o_2) \x7b", "        this = o_2;", "    \x7d", "\x7d"]) = true := by
    refine Chars.accepts .lit ?_
    decide +kernel
  obtain ⟨tree, program, htree, hprogram, htest⟩ := exists_of_accepts haccepts
  obtain ⟨htarget, htest⟩ := Bool.and_eq_true_iff.1 htest
  obtain ⟨t, ht, hplace⟩ := List.any_eq_true.1 htarget
  obtain ⟨script, hscript, htext⟩ := exists_of_any htest
  exact ⟨tree, program, script, htree, hprogram, ⟨t, ht, by simpa using hplace⟩, hscript,
    beq_iff_eq.1 htext⟩

end Dragon
