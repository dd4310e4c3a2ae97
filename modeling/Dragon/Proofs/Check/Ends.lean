import Dragon.Proofs.Check.Yields
import Dragon.Proofs.Tree.Names

/-!
# What checks come to whether they succeed or fail

A check that fails leaves the state of that moment behind, and its failure is a violation with a
place, or a number that can not be read.
-/
namespace Dragon

/-- A failure that comes from a tree whose numbers have a property: a violation, or a number with
that property which has no value. -/
inductive CheckFailure.From (N : Kind → String → Prop) : CheckFailure → Prop
  | violation (fault : SemanticFault) : From N (.violation fault)
  | integer {text : String} {failure : CheckFailure} (h : N .integer text)
      (hvalue : Check.integerValue text = .error failure) : From N failure
  | float {text : String} (h : N .float text) (hvalue : Check.floatValue? text = none) :
      From N (.unreadableFloat text)

namespace Check

variable {α β : Type} {m : Check α} {f : α → Check β} {s s' : State} {N : Kind → String → Prop}

/-- A check ends with a result and a state, or with a failure and a state. -/
def Ends (m : Check α) (s : State) (post : α → State → Prop)
    (stop : CheckFailure → State → Prop) : Prop :=
  match m s with
  | .ok a s' => post a s'
  | .error e s' => stop e s'

namespace Ends

variable {P Q : α → State → Prop} {R : β → State → Prop} {E E' : CheckFailure → State → Prop}

/-- A sequence ends as its second check does, or fails with its first. -/
theorem bind (hm : Ends m s (fun a s₁ => Ends (f a) s₁ R E) E) : Ends (m >>= f) s R E := by
  show match EStateM.bind m f s with
    | .ok b s' => R b s'
    | .error e s' => E e s'
  unfold Ends at hm
  unfold EStateM.bind
  cases hrun : m s with
  | ok a s₁ =>
    rw [hrun] at hm
    exact hm
  | error e s₁ =>
    rw [hrun] at hm
    exact hm

theorem mono (hm : Ends m s P E) (hpost : ∀ a s', P a s' → Q a s')
    (hstop : ∀ e s', E e s' → E' e s') : Ends m s Q E' := by
  unfold Ends at hm ⊢
  cases hrun : m s with
  | ok a s' =>
    rw [hrun] at hm
    exact hpost a s' hm
  | error e s' =>
    rw [hrun] at hm
    exact hstop e s' hm

/-- A check ends as it runs. -/
theorem run (hm : Ends m s P E) :
    Ends m s (fun a s' => m s = .ok a s' ∧ P a s') fun e s' => m s = .error e s' ∧ E e s' := by
  unfold Ends at hm ⊢
  cases hrun : m s with
  | ok a s' =>
    rw [hrun] at hm
    exact ⟨rfl, hm⟩
  | error e s' =>
    rw [hrun] at hm
    exact ⟨rfl, hm⟩

theorem pure {a : α} (h : P a s) : Ends (pure a) s P E := h

theorem throw {failure : CheckFailure} (h : E failure s) : Ends (throw failure) s P E := h

theorem modify {change : State → State} {P : Unit → State → Prop} (h : P () (change s)) :
    Ends (modify change) s P E := h

theorem get {P : State → State → Prop} (h : P s s) : Ends (get : Check State) s P E := h

theorem lookup {name : String} {P : Option Symbol → State → Prop}
    (h : P (s.scope.lookup? name) s) : Ends (lookup name) s P E := h

theorem fresh {P : Nat → State → Prop} (h : P s.next { s with next := s.next + 1 }) :
    Ends fresh s P E := h

theorem require {holds : Bool} {violation : Violation} {span : Span} {P : Unit → State → Prop}
    (hpost : P () s) (hstop : E (.violation ⟨violation, span⟩) s) :
    Ends (require holds violation span) s P E := by
  cases holds with
  | true => exact hpost
  | false => exact hstop

theorem ensures (hm : Ends m s P E) : Ensures m s P := by
  intro a s' h
  unfold Ends at hm
  rwa [h] at hm

theorem of_error (hm : Ends m s P E) {e : CheckFailure} (h : m s = .error e s') : E e s' := by
  unfold Ends at hm
  rwa [h] at hm

end Ends

/-! ### Checks that only look -/

/-- A check that leaves every state alone, even if it fails. -/
def Looks (N : Kind → String → Prop) (m : Check α) : Prop :=
  ∀ s, Ends m s (fun _ s' => s' = s) fun e s' => s' = s ∧ e.From N

namespace Looks

theorem bind (hm : Looks N m) (hf : ∀ a, Looks N (f a)) : Looks N (m >>= f) := by
  refine fun s => .bind ((hm s).mono (fun a s' hs => ?_) fun _ _ h => h)
  rw [hs]
  exact hf a s

theorem pure (a : α) : Looks N (pure a) := fun _ => rfl

theorem fail (violation : Violation) (span : Span) : Looks N (fail violation span : Check α) :=
  fun _ => ⟨rfl, .violation _⟩

theorem require (holds : Bool) (violation : Violation) (span : Span) :
    Looks N (require holds violation span) :=
  fun _ => Ends.require rfl ⟨rfl, .violation _⟩

theorem lookup (name : String) : Looks N (lookup name) := fun _ => rfl

theorem flags : Looks N flags := fun _ => rfl

theorem objectInfo (ref : ObjectRef) : Looks N (objectInfo ref) := fun _ => rfl

end Looks

/-- A check that only looks, and gives nothing without a property. -/
def Views (N : Kind → String → Prop) (Q : α → Prop) (m : Check α) : Prop :=
  ∀ s, Ends m s (fun a s' => s' = s ∧ Q a) fun e s' => s' = s ∧ e.From N

namespace Views

variable {Q : α → Prop} {R : β → Prop}

theorem looks (h : Views N Q m) : Looks N m := fun s => (h s).mono (fun _ _ h => h.1) fun _ _ h => h

theorem bind (hm : Views N Q m) (hf : ∀ a, Q a → Views N R (f a)) : Views N R (m >>= f) := by
  refine fun s => .bind ((hm s).mono (fun a s' h => ?_) fun _ _ h => h)
  obtain ⟨rfl, ha⟩ := h
  exact hf a ha s'

theorem next (hm : Looks N m) (hf : ∀ a, Views N R (f a)) : Views N R (m >>= f) := by
  refine fun s => .bind ((hm s).mono (fun a s' hs => ?_) fun _ _ h => h)
  rw [hs]
  exact hf a s

theorem pure {a : α} (h : Q a) : Views N Q (pure a) := fun _ => ⟨rfl, h⟩

theorem throw {failure : CheckFailure} (h : failure.From N) :
    Views N Q (throw failure : Check α) := fun _ => ⟨rfl, h⟩

theorem fail (violation : Violation) (span : Span) : Views N Q (fail violation span : Check α) :=
  throw (.violation _)

theorem require (holds : Bool) (violation : Violation) (span : Span) :
    Views N (fun _ => holds = true) (require holds violation span) := by
  cases holds with
  | true => exact pure rfl
  | false => exact fail _ _

end Views

end Check

end Dragon
