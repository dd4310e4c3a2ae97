import Dragon.Proofs.Optimize.Parts
import Dragon.Proofs.Typing.Stmt

/-!
# Optimization keeps programs placed

The statements of a branch that is decided take the place of the branch, so what they declare is
then declared for the statements after them as well; nothing else is declared sooner or later than
before, and whatever is named was named before.
-/
namespace Dragon

namespace Typed

/-! ### Expressions -/

section Expressions

variable {Γ : Context}

theorem Expr.placed_optimize (e : Expr) (he : e.Placed Γ) : e.optimize.value.Placed Γ :=
  each_optimize_of_leaf (fun e he => by cases e <;> exact he) (fun _ _ _ => trivial)
    (fun _ _ _ _ _ => trivial) he

theorem placed_optimizeFields (fields : List FieldInit) (h : ∀ f ∈ fields, f.Placed Γ .guild) :
    ∀ f ∈ (optimizeFields fields).value, f.Placed Γ .guild := by
  rw [optimizeFields_eq]
  refine List.forall_mem_map.2 fun f hf => ?_
  have hf := h f hf
  obtain ⟨field, value⟩ := f
  cases value with
  | none => exact hf.elim
  | some value => exact value.placed_optimize hf

end Expressions

/-! ### Statements -/

/-- The context after some statements. -/
def contextAfter (Γ : Context) (ss : List Stmt) : Context :=
  ss.foldl (fun Γ s => Γ.bind s.declared) Γ

theorem covers_contextAfter {Γ Γ' : Context} (ss : List Stmt) (h : Γ'.Covers Γ) :
    (contextAfter Γ' ss).Covers Γ := by
  induction ss generalizing Γ' with
  | nil => exact h
  | cons s rest ih =>
    refine ih ⟨fun symbol hsymbol => ?_, h.flags⟩
    exact List.mem_append_right _ (h.symbols hsymbol)

theorem blockPlaced_append {Γ : Context} {ss ss' : List Stmt} (h : blockPlaced Γ ss)
    (h' : blockPlaced (contextAfter Γ ss) ss') : blockPlaced Γ (ss ++ ss') := by
  induction ss generalizing Γ with
  | nil => exact h'
  | cons s rest ih => exact ⟨h.1, ih h.2 h'⟩

/-- Some statements can stand in the place of one. -/
structure Replaces (Γ : Context) (s : Stmt) (ss : List Stmt) : Prop where
  placed : blockPlaced Γ ss
  declares : (contextAfter Γ ss).Covers (Γ.bind s.declared)

section Statements

variable {Γ : Context} {s s' : Stmt} {body : List Stmt}

theorem replaces_one (h : s'.Placed Γ) (hdeclared : s'.declared = s.declared) :
    Replaces Γ s [s'] := by
  refine ⟨⟨h, trivial⟩, ?_⟩
  rw [← hdeclared]
  exact .refl _

/-- A statement that declares nothing for those after it can give way to any statements. -/
theorem replaces_block (h : blockPlaced Γ body) (hdeclared : s.declared = []) :
    Replaces Γ s body := by
  refine ⟨h, ?_⟩
  rw [hdeclared]
  exact covers_contextAfter body (.refl _)

theorem Stmt.declared_optimized (s : Stmt) : s.optimized.declared = s.declared := by
  cases s with
  | object kind ref fields parameters methods => cases kind <;> rfl
  | _ => rfl

theorem declared_of_isIdle (h : s.isIdle = true) : s.declared = [] := by
  cases s with
  | declare _ _ _ | function _ _ | object _ _ _ _ _ => cases h
  | _ => rfl

theorem placed_ofBlock (h : blockPlaced Γ body) : (Alternate.ofBlock body).Placed Γ := by
  cases body with
  | nil => trivial
  | cons s rest => exact h

theorem placed_optimizeBody (f : Func) (h : blockPlaced Γ body)
    (hoptimized : blockPlaced Γ (optimizeBlock body).value) :
    blockPlaced Γ (optimizeBody f body).value := by
  unfold optimizeBody
  split_ifs
  · exact h
  · exact hoptimized

theorem Stmt.Left.replaces {ss : List Stmt} (h : s'.Left ss) (hs : s'.Placed Γ)
    (hdeclared : s'.declared = s.declared) : Replaces Γ s ss := by
  cases h with
  | same => exact replaces_one hs hdeclared
  | nothing hidle => exact replaces_block trivial (hdeclared ▸ declared_of_isIdle hidle)
  | body => exact replaces_block hs.2.1 hdeclared.symm
  | @other test body alternate =>
    refine replaces_block ?_ hdeclared.symm
    cases alternate with
    | none | block body => exact hs.2.2
    | chain test body alternate => exact ⟨hs.2.2, trivial⟩

theorem Alternate.Left.placed {a a' : Alternate} (h : a.Left a') (ha : a.Placed Γ) :
    a'.Placed Γ := by
  cases h with
  | none | same => exact ha
  | block => exact placed_ofBlock ha
  | body => exact placed_ofBlock ha.2.1
  | other => exact ha.2.2

end Statements

mutual

/-- A statement stays placed with its parts optimized. -/
theorem Stmt.placed_optimized {Γ : Context} (s : Stmt) (hs : s.Placed Γ) :
    s.optimized.Placed Γ := by
  match s with
  | .declare mutable v e => exact e.placed_optimize hs
  | .print e | .increment e | .decrement e | .call e => exact e.placed_optimize hs
  | .function f body => exact placed_optimizeBody f hs (placed_optimizeBlock body hs)
  | .object .matter ref fields parameters methods => exact hs
  | .object .guild ref fields parameters methods =>
    exact ⟨placed_optimizeFields fields hs.1, placed_optimizeMethods ref methods hs.2.1, nofun⟩
  | .assign target source => exact ⟨target.placed_optimize hs.1, source.placed_optimize hs.2⟩
  | .return_ e => exact ⟨hs.1, e.placed_optimize hs.2⟩
  | .shortReturn | .break_ => exact hs
  | .branch test body alternate =>
    exact ⟨test.placed_optimize hs.1, placed_optimizeBlock body hs.2.1,
      alternate.placed_optimize hs.2.2⟩
  | .while_ e body | .repeat_ e body | .forEach _ e body =>
    exact ⟨e.placed_optimize hs.1, placed_optimizeBlock body hs.2⟩
  | .range iterator low kind high body =>
    exact ⟨low.placed_optimize hs.1, high.placed_optimize hs.2.1, placed_optimizeBlock body hs.2.2⟩
  | .foreignRange .. | .expr _ | .bare .. | .misplaced .. => exact hs.elim

theorem placed_optimizeBlock {Γ : Context} (ss : List Stmt) (hss : blockPlaced Γ ss) :
    blockPlaced Γ (optimizeBlock ss).value := by
  match ss with
  | [] => trivial
  | s :: rest =>
    have hs := s.left_optimize.replaces (s.placed_optimized hss.1) s.declared_optimized
    have hrest := placed_optimizeBlock rest hss.2
    exact blockPlaced_append hs.placed (blockPlaced_mono hs.declares _ hrest)

theorem placed_optimizeMethods {Γ : Context} (ref : ObjectRef) (ms : List Method)
    (hms : methodsPlaced Γ ref ms) : methodsPlaced Γ ref (optimizeMethods ms).value := by
  match ms with
  | [] => trivial
  | .mk f body :: rest =>
    rw [optimizeMethods_cons]
    exact ⟨placed_optimizeBody f hms.1 (placed_optimizeBlock body hms.1),
      placed_optimizeMethods ref rest hms.2⟩

theorem Alternate.placed_optimize {Γ : Context} (a : Alternate) (ha : a.Placed Γ) :
    a.optimize.value.Placed Γ := by
  refine a.left_optimize.placed ?_
  match a with
  | .none => trivial
  | .block body => exact placed_optimizeBlock body ha
  | .chain test body alternate =>
    exact ⟨test.placed_optimize ha.1, placed_optimizeBlock body ha.2.1,
      alternate.placed_optimize ha.2.2⟩

end

theorem Program.placed_optimize {p : Program} (h : p.Placed) : p.optimize.value.Placed :=
  placed_optimizeBlock p.statements h

theorem Program.placed_of_accepted {tree : Tree.Program} {program : Program}
    (haccepted : (Checked.ofTree tree).result = .ok program) : program.Placed :=
  blockPlaced_of_wellTyped program.statements (sound_of_accepted haccepted).1

end Typed

end Dragon
