import Dragon.Check.Stmt

/-!
# What checks that succeed come to

`Ensures` speaks of the result and the state after a check; `Yields` is for checks that only look at
the state.
-/
namespace Dragon.Check

variable {α β : Type} {m : Check α} {f : α → Check β} {s s' : State}

/-- A sequence succeeds if both of its checks do. -/
theorem bind_eq_ok {b : β} :
    (m >>= f) s = .ok b s' ↔ ∃ a s₁, m s = .ok a s₁ ∧ f a s₁ = .ok b s' := by
  show EStateM.bind m f s = .ok b s' ↔ _
  unfold EStateM.bind
  cases m s with
  | error e s₁ => simp
  | ok a s₁ =>
    constructor
    · intro h
      exact ⟨a, s₁, rfl, h⟩
    · rintro ⟨a', s₁', ha, h⟩
      cases ha
      exact h

/-- A requirement is passed exactly if it holds. -/
theorem require_eq_ok {holds : Bool} {violation : Violation} {span : Span} {u : Unit} :
    require holds violation span s = .ok u s' ↔ holds = true ∧ s' = s := by
  cases holds with
  | true =>
    constructor
    · rintro ⟨⟩
      exact ⟨rfl, rfl⟩
    · rintro ⟨-, rfl⟩
      rfl
  | false =>
    constructor
    · nofun
    · nofun

/-! ### Checks that change the state -/

def Ensures (m : Check α) (s : State) (post : α → State → Prop) : Prop :=
  ∀ a s', m s = .ok a s' → post a s'

namespace Ensures

variable {P Q : α → State → Prop} {R : β → State → Prop}

theorem bind (hm : Ensures m s fun a s₁ => Ensures (f a) s₁ R) : Ensures (m >>= f) s R := by
  intro b s' h
  obtain ⟨a, s₁, ha, hb⟩ := bind_eq_ok.1 h
  exact hm a s₁ ha b s' hb

theorem mono (hm : Ensures m s P) (h : ∀ a s', P a s' → Q a s') : Ensures m s Q :=
  fun a s' ha => h a s' (hm a s' ha)

theorem pure {a : α} (h : P a s) : Ensures (pure a) s P := by
  intro b s' hb
  cases hb
  exact h

theorem fail (violation : Violation) (span : Span) : Ensures (fail violation span) s P := by
  intro a s' h
  cases h

theorem require {holds : Bool} {violation : Violation} {span : Span} {P : Unit → State → Prop}
    (h : holds = true → P () s) : Ensures (require holds violation span) s P := by
  intro a s' ha
  unfold Check.require at ha
  split at ha
  next hholds =>
    cases ha
    exact h hholds
  next => cases ha

theorem modify {change : State → State} {P : Unit → State → Prop} (h : P () (change s)) :
    Ensures (modify change) s P := by
  intro a s' ha
  cases ha
  exact h

theorem get {P : State → State → Prop} (h : P s s) : Ensures (get : Check State) s P := by
  intro a s' ha
  cases ha
  exact h

end Ensures

/-! ### Checks that leave the state alone -/

def Yields (m : Check α) (s : State) (Q : α → Prop) : Prop :=
  Ensures m s fun a s' => s' = s ∧ Q a

namespace Yields

variable {P Q : α → Prop} {R : β → Prop}

theorem bind (hm : Yields m s Q) (hf : ∀ a, Q a → Yields (f a) s R) : Yields (m >>= f) s R :=
  Ensures.bind (hm.mono fun a _ ⟨hs, ha⟩ => hs ▸ hf a ha)

theorem ensures (hm : Yields m s Q) {R : β → State → Prop} (hf : ∀ a, Q a → Ensures (f a) s R) :
    Ensures (m >>= f) s R :=
  Ensures.bind (hm.mono fun a _ ⟨hs, ha⟩ => hs ▸ hf a ha)

theorem mono (hm : Yields m s P) (h : ∀ a, P a → Q a) : Yields m s Q :=
  Ensures.mono hm fun a _ ⟨hs, ha⟩ => ⟨hs, h a ha⟩

theorem pure {a : α} (h : Q a) : Yields (pure a) s Q := Ensures.pure ⟨rfl, h⟩

theorem fail (violation : Violation) (span : Span) : Yields (fail violation span) s Q :=
  Ensures.fail violation span

theorem throw (failure : CheckFailure) : Yields (throw failure) s Q := by
  intro a s' h
  cases h

theorem require {holds : Bool} {violation : Violation} {span : Span} :
    Yields (require holds violation span) s fun _ => holds = true :=
  Ensures.require fun h => ⟨rfl, h⟩

theorem lookup (name : String) :
    Yields (lookup name) s fun symbol => symbol = s.scope.lookup? name :=
  fun a s' h => by cases h; exact ⟨rfl, rfl⟩

theorem flags : Yields flags s fun f => f = s.scope.flags :=
  fun a s' h => by cases h; exact ⟨rfl, rfl⟩

theorem objectInfo (ref : ObjectRef) :
    Yields (objectInfo ref) s fun info =>
      info = (s.objects.get? ref.id).getD ⟨ref, [], none, []⟩ :=
  fun a s' h => by cases h; exact ⟨rfl, rfl⟩

end Yields

end Dragon.Check

namespace Dragon

/-- A program is accepted if its statements are, and nothing is checked after them. -/
theorem Checked.block_of_accepted {tree : Tree.Program} {program : Typed.Program}
    (haccepted : (ofTree tree).result = .ok program) :
    Check.block tree.statements .initial = .ok program.statements (ofTree tree).state := by
  unfold ofTree at haccepted ⊢
  cases hrun : (Check.block tree.statements).run .initial with
  | error failure state =>
    rw [hrun] at haccepted
    cases haccepted
  | ok statements state =>
    rw [hrun] at haccepted
    cases haccepted
    exact hrun

end Dragon
