import Dragon.Proofs.Check.Inside
import Dragon.Proofs.Check.Numbers
import Dragon.Proofs.Optimize.Reduct
import Mathlib.Data.List.Flatten

/-!
# Optimization removes statements and simplifies those that are left

At every depth, the statements that are left are some of those before, in the same order, with their
parts optimized; no statement is made anew. So what a program declares is declared once, before and
after optimization.
-/
namespace Dragon

namespace Typed

/-- What optimization reaches all parts of: functions and methods of the program itself, and no
methods of matters. -/
def Stmt.Regular : Stmt → Prop
  | .function f _ => f.intrinsic = false
  | .object kind _ _ _ methods =>
    (kind = .matter → methods = []) ∧ ∀ m ∈ methods, m.func.intrinsic = false
  | _ => True

theorem func_optimizeMethods (ms : List Method) :
    (optimizeMethods ms).value.map Method.func = ms.map Method.func := by
  induction ms with
  | nil => rfl
  | cons m rest ih =>
    obtain ⟨f, body⟩ := m
    rw [optimizeMethods_cons]
    exact congrArg (f :: ·) ih

theorem Stmt.regular_optimized {s : Stmt} (hs : s.Regular) : s.optimized.Regular := by
  cases s with
  | function f body => exact hs
  | object kind ref fields parameters methods =>
    cases kind with
    | matter => exact hs
    | guild =>
      refine ⟨fun hkind => ?_, fun m hm => ?_⟩
      · cases hkind
      · have hfunc : m.func ∈ (optimizeMethods methods).value.map Method.func :=
          List.mem_map_of_mem hm
        rw [func_optimizeMethods] at hfunc
        obtain ⟨m', hm', heq⟩ := List.mem_map.1 hfunc
        exact heq ▸ hs.2 m' hm'
  | _ => trivial

/-- Statements that are left of some by optimization. -/
def Shrinks (before after : List Stmt) : Prop := after.Sublist (before.map Stmt.optimized)

namespace Shrinks

variable {before before' after after' : List Stmt} {s : Stmt}

theorem nil : Shrinks before [] := List.nil_sublist _

theorem append (h : Shrinks before after) (h' : Shrinks before' after') :
    Shrinks (before ++ before') (after ++ after') := by
  unfold Shrinks
  rw [List.map_append]
  exact List.Sublist.append h h'

theorem keep (h : Shrinks before after) : Shrinks (s :: before) (s.optimized :: after) :=
  List.Sublist.cons_cons _ h

end Shrinks

theorem blockInside_singleton (s : Stmt) : blockInside [s] = s :: s.nested :=
  congrArg (s :: ·) (List.append_nil _)

theorem inside_residue (a : Alternate) : blockInside a.residue.statements = a.inside := by
  cases a with
  | none | block body => rfl
  | chain test body alternate => exact blockInside_singleton _

theorem inside_ofBlock (body : List Stmt) :
    (Alternate.ofBlock body).inside = blockInside body := by
  cases body <;> rfl

theorem optimizeBody_of_own {f : Func} (hf : f.intrinsic = false) (body : List Stmt) :
    optimizeBody f body = optimizeBlock body := by
  rw [optimizeBody, hf, if_neg (by simp)]

theorem Stmt.Left.inside_sublist {s : Stmt} {ss : List Stmt} (h : s.Left ss) :
    (blockInside ss).Sublist (s :: s.nested) := by
  cases h with
  | same => exact blockInside_singleton _ ▸ List.Sublist.refl _
  | nothing => exact List.nil_sublist _
  | body => exact (List.sublist_append_left _ _).cons _
  | other =>
    rw [inside_residue]
    exact (List.sublist_append_right _ _).cons _

theorem Alternate.Left.inside_sublist {a a' : Alternate} (h : a.Left a') :
    a'.inside.Sublist a.inside := by
  cases h with
  | none | same => exact List.Sublist.refl _
  | block => exact inside_ofBlock _ ▸ List.Sublist.refl _
  | body =>
    rw [inside_ofBlock]
    exact (List.sublist_append_left _ _).cons _
  | other => exact (List.sublist_append_right _ _).cons _

mutual

/-- Nested statements are removed or kept, never added. -/
theorem Stmt.shrinks_nested (s : Stmt) (hs : ∀ s' ∈ s :: s.nested, s'.Regular) :
    Shrinks s.nested s.optimized.nested := by
  obtain ⟨hself, hnested⟩ := List.forall_mem_cons.1 hs
  cases s with
  | function f body =>
    -- The body of an intrinsic function would stay as it is, statements that nothing reaches
    -- included.
    show Shrinks (blockInside body) (blockInside (optimizeBody f body).value)
    rw [optimizeBody_of_own hself]
    exact shrinks_optimizeBlock body hnested
  | object kind ref fields parameters methods =>
    cases kind with
    | matter =>
      obtain rfl := hself.1 rfl
      exact .nil
    | guild => exact shrinks_optimizeMethods methods hself.2 hnested
  | branch test body alternate =>
    obtain ⟨hbody, halternate⟩ := List.forall_mem_append.1 hnested
    exact (shrinks_optimizeBlock body hbody).append (alternate.shrinks_optimize halternate)
  | while_ _ body | repeat_ _ body | range _ _ _ _ body | foreignRange _ _ _ _ body
  | forEach _ _ body => exact shrinks_optimizeBlock body hnested
  | _ => exact .nil

theorem shrinks_optimizeBlock (ss : List Stmt) (hss : ∀ s ∈ blockInside ss, s.Regular) :
    Shrinks (blockInside ss) (blockInside (optimizeBlock ss).value) := by
  match ss with
  | [] => exact .nil
  | s :: rest =>
    show Shrinks ((s :: s.nested) ++ blockInside rest)
      (blockInside (s.optimize.value.statements ++ (optimizeBlock rest).value))
    rw [blockInside_append]
    have hss : ∀ s' ∈ (s :: s.nested) ++ blockInside rest, s'.Regular := hss
    obtain ⟨hs, hrest⟩ := List.forall_mem_append.1 hss
    have hleft : Shrinks (s :: s.nested) (blockInside s.optimize.value.statements) :=
      s.left_optimize.inside_sublist.trans (s.shrinks_nested hs).keep
    exact hleft.append (shrinks_optimizeBlock rest hrest)

theorem shrinks_optimizeMethods (ms : List Method) (hms : ∀ m ∈ ms, m.func.intrinsic = false)
    (hnested : ∀ s ∈ methodsInside ms, s.Regular) :
    Shrinks (methodsInside ms) (methodsInside (optimizeMethods ms).value) := by
  match ms with
  | [] => exact .nil
  | .mk f body :: rest =>
    obtain ⟨hf, hms⟩ := List.forall_mem_cons.1 hms
    obtain ⟨hbody, hrest⟩ := List.forall_mem_append.1 hnested
    rw [optimizeMethods_cons, optimizeBody_of_own (f := f) hf]
    exact (shrinks_optimizeBlock body hbody).append (shrinks_optimizeMethods rest hms hrest)

theorem Alternate.shrinks_optimize (a : Alternate) (ha : ∀ s ∈ a.inside, s.Regular) :
    Shrinks a.inside a.optimize.value.inside := by
  suffices hparts : Shrinks a.inside a.optimized.inside from
    a.left_optimize.inside_sublist.trans hparts
  match a with
  | .none => exact .nil
  | .block body => exact shrinks_optimizeBlock body ha
  | .chain test body alternate =>
    obtain ⟨-, hnested⟩ := List.forall_mem_cons.1 ha
    obtain ⟨hbody, halternate⟩ := List.forall_mem_append.1 hnested
    have hinside := (shrinks_optimizeBlock body hbody).append
      (alternate.shrinks_optimize halternate)
    exact hinside.keep (s := .branch test body alternate)

end

/-! ### Declarations -/

open Script (Entity)

/-- What a statement declares, without the statements in it. -/
def Stmt.declares : Stmt → List Entity
  | .declare _ v _ | .range v _ _ _ _ | .foreignRange v _ _ _ _ | .forEach v _ _ => [.ofVar v]
  | .function f _ => .symbol f.id :: f.params.map .ofVar
  | .object .matter ref fields _ _ => .symbol ref.id :: fields.map fun f => .ofField f.field
  | .object .guild ref _ parameters methods =>
    .symbol ref.id :: (parameters.getD []).map .ofParam ++
      (methods.map Method.func).flatMap fun f => f.params.map .ofVar
  | _ => []

mutual

/-- The entities of a statement are declared by it and those in it. -/
theorem Stmt.perm_entities (s : Stmt) (hs : ∀ s' ∈ s :: s.nested, s'.Regular) :
    ((s :: s.nested).flatMap Stmt.declares).Perm s.entities := by
  obtain ⟨hself, hnested⟩ := List.forall_mem_cons.1 hs
  rw [List.flatMap_cons]
  cases s with
  | function f body => exact (perm_blockEntities body hnested).append_left _
  | object kind ref fields parameters methods =>
    cases kind with
    | matter =>
      obtain rfl := hself.1 rfl
      exact .of_eq (List.append_nil _)
    | guild =>
      rw [Stmt.declares, List.append_assoc]
      exact (perm_methodsEntities methods hnested).append_left _
  | branch test body alternate =>
    obtain ⟨hbody, halternate⟩ := List.forall_mem_append.1 hnested
    rw [Stmt.nested, List.flatMap_append]
    exact (perm_blockEntities body hbody).append (alternate.perm_entities halternate)
  | while_ _ body | repeat_ _ body => exact perm_blockEntities body hnested
  | range _ _ _ _ body | foreignRange _ _ _ _ body | forEach _ _ body =>
    exact (perm_blockEntities body hnested).cons _
  | _ => exact .refl _

theorem perm_blockEntities (ss : List Stmt) (hss : ∀ s ∈ blockInside ss, s.Regular) :
    ((blockInside ss).flatMap Stmt.declares).Perm (blockEntities ss) := by
  match ss with
  | [] => exact .nil
  | s :: rest =>
    rw [blockInside, ← List.cons_append] at hss ⊢
    obtain ⟨hs, hrest⟩ := List.forall_mem_append.1 hss
    rw [List.flatMap_append]
    exact (s.perm_entities hs).append (perm_blockEntities rest hrest)

/-- The parameters of all methods come first. -/
theorem perm_methodsEntities (ms : List Method) (hms : ∀ s ∈ methodsInside ms, s.Regular) :
    (((ms.map Method.func).flatMap fun f => f.params.map Entity.ofVar) ++
      (methodsInside ms).flatMap Stmt.declares).Perm (methodsEntities ms) := by
  match ms with
  | [] => exact .nil
  | .mk f body :: rest =>
    obtain ⟨hbody, hrest⟩ := List.forall_mem_append.1 hms
    have h := ((perm_blockEntities body hbody).append
      (perm_methodsEntities rest hrest)).append_left (f.params.map .ofVar)
    refine .trans ?_ (h.trans (.of_eq (List.append_assoc _ _ _).symm))
    simp only [methodsInside, List.map_cons, List.flatMap_cons, List.flatMap_append,
      List.append_assoc]
    exact (List.perm_append_comm_assoc _ _ _).append_left _

theorem Alternate.perm_entities (a : Alternate) (ha : ∀ s ∈ a.inside, s.Regular) :
    (a.inside.flatMap Stmt.declares).Perm a.entities := by
  match a with
  | .none => exact .nil
  | .block body => exact perm_blockEntities body ha
  | .chain test body alternate =>
    obtain ⟨-, hnested⟩ := List.forall_mem_cons.1 ha
    obtain ⟨hbody, halternate⟩ := List.forall_mem_append.1 hnested
    rw [Alternate.inside, List.flatMap_cons, List.flatMap_append]
    exact (perm_blockEntities body hbody).append (alternate.perm_entities halternate)

end

theorem Stmt.declares_optimized (s : Stmt) : s.optimized.declares = s.declares := by
  cases s with
  | object kind => cases kind <;> simp [optimized, declares, func_optimizeMethods]
  | _ => rfl

end Typed

/-! ### Accepted programs -/

open Typed

theorem Check.Makes.regular {t : Tree.Stmt} {s : Stmt} (h : Makes t s) : s.Regular := by
  cases h with
  | function hf => exact hf.own
  | matter =>
    refine ⟨fun _ => rfl, fun m hm => ?_⟩
    cases hm
  | guild hmethods _ _ =>
    refine ⟨fun hkind => ?_, fun m hm => (hmethods m hm).own⟩
    cases hkind
  | _ => trivial

/-- What a statement of the source comes to in the program, as it is or optimized. -/
def ComesTo (optimize : Bool) (t : Tree.Stmt) (s : Stmt) : Prop :=
  ∃ s₀, Check.Becomes t s₀ ∧ s = if optimize then s₀.optimized else s₀

/-- The statements of accepted programs are regular, optimized or not. -/
theorem regular_of_accepted {tree : Tree.Program} {program : Program}
    (haccepted : (Checked.ofTree tree).result = .ok program) (optimize : Bool) :
    ∀ s ∈ (if optimize then program.optimize.value else program).inside, s.Regular := by
  have hregular : ∀ s ∈ program.inside, s.Regular := by
    intro s hs
    obtain ⟨t, -, hbecomes⟩ := exists_of_mem_right (sound_of_accepted haccepted).2 hs
    exact hbecomes.makes.regular
  cases optimize with
  | false => exact hregular
  | true =>
    intro s hs
    have hshrinks := shrinks_optimizeBlock program.statements hregular
    obtain ⟨s₀, hs₀, rfl⟩ := List.mem_map.1 (List.Sublist.subset hshrinks hs)
    exact Stmt.regular_optimized (hregular s₀ hs₀)

/-- The statements of an accepted program are those of its source, and after optimization some of
them. -/
theorem exists_inside_of_accepted {tree : Tree.Program} {program : Program}
    (haccepted : (Checked.ofTree tree).result = .ok program) (optimize : Bool) :
    ∃ kept, kept.Sublist tree.inside ∧ (optimize = false → kept = tree.inside) ∧
      List.Forall₂ (ComesTo optimize) kept
        (if optimize then program.optimize.value else program).inside := by
  have hinside := (sound_of_accepted haccepted).2
  cases optimize with
  | false =>
    exact ⟨tree.inside, .refl _, fun _ => rfl, hinside.imp fun t s hs => ⟨s, hs, rfl⟩⟩
  | true =>
    have hshrinks : Shrinks program.inside program.optimize.value.inside :=
      shrinks_optimizeBlock program.statements (regular_of_accepted haccepted false)
    have hoptimized : List.Forall₂ (ComesTo true) tree.inside
        (program.inside.map Stmt.optimized) :=
      List.forall₂_map_right_iff.2 (hinside.imp fun t s hs => ⟨s, hs, rfl⟩)
    obtain ⟨kept, hkept, hrel⟩ := exists_sublist_forall₂ hoptimized hshrinks
    exact ⟨kept, hkept, nofun, hrel⟩

/-- No two things that an accepted program declares have the same number. -/
theorem nodup_declares {tree : Tree.Program} {program : Program}
    (haccepted : (Checked.ofTree tree).result = .ok program) (optimize : Bool) :
    let p := if optimize then program.optimize.value else program
    (p.inside.flatMap Stmt.declares).Nodup ∧ (blockEntities p.statements).Nodup := by
  intro p
  have hregular := regular_of_accepted haccepted
  have hentities := nodup_entities_of_accepted haccepted
  have hnodup : (program.inside.flatMap Stmt.declares).Nodup :=
    (perm_blockEntities _ (hregular false)).nodup_iff.2 hentities
  cases optimize with
  | false => exact ⟨hnodup, hentities⟩
  | true =>
    have hshrinks : Shrinks program.inside p.inside :=
      shrinks_optimizeBlock program.statements (hregular false)
    have hsublist := List.Sublist.flatMap hshrinks Stmt.declares
    simp only [List.flatMap_map, Stmt.declares_optimized] at hsublist
    have hafter := hnodup.sublist hsublist
    exact ⟨hafter, (perm_blockEntities _ (hregular true)).nodup_iff.1 hafter⟩

end Dragon
