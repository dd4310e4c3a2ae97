import Dragon.Proofs.Meaning.Datum

/-!
# Steps of a running program

A step takes a state to a result and a new state, or to a fault. One step refines another when it
does the same wherever the other comes to an end without a fault.
-/
namespace Dragon.Meaning

abbrev Step (σ α : Type) := StateT σ (Except Fault) α

variable {σ α β : Type}

/-- A step that only has a result, or a fault. -/
def lift (x : Except Fault α) : Step σ α := fun s => x.map fun a => (a, s)

def fault (f : Fault) : Step σ α := lift (.error f)

/-! ### What a step that ends has done -/

theorem bind_eq_ok {x : Step σ α} {f : α → Step σ β} {s : σ} {r : β × σ} :
    (x >>= f) s = .ok r ↔ ∃ a s', x s = .ok (a, s') ∧ f a s' = .ok r := by
  have unfolded : (x >>= f) s = (x s >>= fun p => f p.1 p.2) := rfl
  rw [unfolded]
  cases x s with
  | error e => simp [bind, Except.bind]
  | ok p =>
    constructor
    · intro h
      exact ⟨p.1, p.2, rfl, h⟩
    · rintro ⟨a, s', hp, h⟩
      cases hp
      exact h

theorem pure_eq_ok {a : α} {s : σ} {r : α × σ} :
    (pure a : Step σ α) s = .ok r ↔ r = (a, s) := by
  have unfolded : (pure a : Step σ α) s = Except.ok (a, s) := rfl
  rw [unfolded, Except.ok.injEq, eq_comm]

theorem lift_eq_ok {x : Except Fault α} {s : σ} {r : α × σ} :
    lift x s = .ok r ↔ ∃ a, x = .ok a ∧ r = (a, s) := by
  cases x with
  | error e => simp [lift, Except.map]
  | ok a => simp [lift, Except.map, eq_comm]

theorem fault_ne_ok {f : Fault} {s : σ} {r : α × σ} : (fault f : Step σ α) s ≠ .ok r := by
  simp [fault, lift, Except.map]

/-! ### Refinement -/

def Refines (x y : Step σ α) : Prop := ∀ s r, x s = .ok r → y s = .ok r

namespace Refines

variable {x y z : Step σ α} {f g : α → Step σ β}

theorem refl (x : Step σ α) : Refines x x := fun _ _ h => h

theorem trans (hxy : Refines x y) (hyz : Refines y z) : Refines x z :=
  fun s r h => hyz s r (hxy s r h)

theorem bind (hx : Refines x y) (hf : ∀ a, Refines (f a) (g a)) :
    Refines (x >>= f) (y >>= g) := by
  intro s r h
  obtain ⟨a, s', ha, hr⟩ := bind_eq_ok.1 h
  exact bind_eq_ok.2 ⟨a, s', hx s _ ha, hf a s' r hr⟩

theorem of_eq (h : x = y) : Refines x y := h ▸ refl x

end Refines

end Dragon.Meaning
