import Dragon.Check.Stmt
import Dragon.Proofs.Tree.Names

/-!
# Declared names

Names that are declared: those of a program of its own and of the members of its objects. None of
the variables and functions that it declares is one of the library.
-/
namespace Dragon

/-! ### Names in programs -/

section Names

variable (W : String → Prop)

/-- A variable of the program's own, with a name of a property. -/
structure Var.Own (v : Var) : Prop where
  name : W v.name
  own : v.intrinsic = false

/-- A function of the program's own. -/
structure Func.Own (f : Func) : Prop where
  name : W f.name
  own : f.intrinsic = false
  params : ∀ p ∈ f.params, p.Own W

/-- A symbol that a program declares itself. -/
def Symbol.Own : Symbol → Prop
  | var v => v.Own W
  | param p => W p.name
  | func f _ => f.Own W
  | object o => W o.name

/-- The members of an object and what constructs it have names with a property. -/
structure ObjectInfo.Named (o : ObjectInfo) : Prop where
  fields : ∀ f ∈ o.fields, W f.name
  methods : ∀ m ∈ o.methods, m.Own W
  parameters : ∀ ps, o.parameters = some ps → ∀ p ∈ ps, W p.name

namespace Typed

mutual

def Stmt.Named : Stmt → Prop
  | .declare _ v _ => v.Own W
  | .function f body => f.Own W ∧ blockNamed body
  | .object _ ref fields parameters methods =>
    W ref.name ∧ (∀ f ∈ fields, W f.field.name) ∧
      (∀ ps, parameters = some ps → ∀ p ∈ ps, W p.name) ∧ methodsNamed methods
  | .branch _ body alternate => blockNamed body ∧ alternate.Named
  | .while_ _ body | .repeat_ _ body => blockNamed body
  | .range iterator _ _ _ body | .foreignRange iterator _ _ _ body | .forEach iterator _ body =>
    iterator.Own W ∧ blockNamed body
  | .print _ | .assign .. | .increment _ | .decrement _ | .return_ _ | .shortReturn | .break_
  | .call _ | .expr _ | .bare .. | .misplaced .. => True

def blockNamed : List Stmt → Prop
  | [] => True
  | s :: rest => s.Named ∧ blockNamed rest

def methodsNamed : List Method → Prop
  | [] => True
  | .mk f body :: rest => f.Own W ∧ blockNamed body ∧ methodsNamed rest

def Alternate.Named : Alternate → Prop
  | .none => True
  | .block body => blockNamed body
  | .chain _ body alternate => blockNamed body ∧ alternate.Named

end

end Typed

end Names

namespace ObjectInfo.Named

variable {W : String → Prop} {o : ObjectInfo}

theorem addField (h : o.Named W) {f : Field} (hf : W f.name) :
    { o with fields := o.fields ++ [f] }.Named W :=
  { h with fields := List.forall_mem_append.2 ⟨h.fields, List.forall_mem_singleton.2 hf⟩ }

theorem addMethod (h : o.Named W) {f : Func} (hf : f.Own W) :
    { o with methods := o.methods ++ [f] }.Named W :=
  { h with methods := List.forall_mem_append.2 ⟨h.methods, List.forall_mem_singleton.2 hf⟩ }

theorem setParameters (h : o.Named W) {ps : List ForgeParam} (hps : ∀ p ∈ ps, W p.name) :
    { o with parameters := some ps }.Named W :=
  { h with parameters := by simpa using hps }

end ObjectInfo.Named

/-- All objects that a state knows have members with names of a property. -/
def Check.State.Named (W : String → Prop) (s : Check.State) : Prop := ∀ o ∈ s.objects, o.Named W

/-! ### Names in trees -/

namespace Tree

mutual

/-- Nothing is asked of names. -/
theorem Stmt.named_true (t : Stmt) : t.Named fun _ => True := by
  cases t with
  | function definition => exact definition.named_true
  | matter => exact ⟨trivial, fun _ _ => trivial⟩
  | guild _ _ _ methods =>
    exact ⟨trivial, fun _ _ => trivial, fun _ _ _ _ _ _ => trivial, functionsNamed_true methods⟩
  | branch _ body alternate => exact ⟨blockNamed_true body, alternate.named_true⟩
  | while_ _ body | repeat_ _ body => exact blockNamed_true body
  | range _ _ _ _ body | forEach _ _ body => exact ⟨trivial, blockNamed_true body⟩
  | _ => exact trivial

theorem FunctionDef.named_true (f : FunctionDef) : f.Named fun _ => True := by
  match f with
  | .mk _ _ _ body _ => exact ⟨trivial, fun _ _ => trivial, blockNamed_true body⟩

theorem blockNamed_true (ts : List Stmt) : blockNamed (fun _ => True) ts := by
  match ts with
  | [] => exact trivial
  | t :: rest => exact ⟨t.named_true, blockNamed_true rest⟩

theorem functionsNamed_true (fs : List FunctionDef) : functionsNamed (fun _ => True) fs := by
  match fs with
  | [] => exact trivial
  | f :: rest => exact ⟨f.named_true, functionsNamed_true rest⟩

theorem Alternate.named_true (a : Alternate) : a.Named fun _ => True := by
  match a with
  | .none => exact trivial
  | .block body => exact blockNamed_true body
  | .chain _ body alternate _ => exact ⟨blockNamed_true body, alternate.named_true⟩

end

end Tree

end Dragon
