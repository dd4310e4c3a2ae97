import Dragon.Proofs.Check.Yields

/-!
# Steps that change the state

The steps of a check that change its state: taking a number, binding a name, replacing what it
stands for, and checking in a frame of its own.
-/
namespace Dragon

namespace Scope

/-- Binds a name in the innermost frame. -/
def push (b : Binding) : Scope → Scope
  | [] => []
  | frame :: outer => { frame with bindings := frame.bindings ++ [b] } :: outer

/-- Replaces the symbol of a name in the innermost frame. -/
def replace (name : String) (symbol : Symbol) : Scope → Scope
  | [] => []
  | frame :: outer => frame.update name symbol :: outer

variable {scope : Scope}

@[simp] theorem tail_push (b : Binding) : (scope.push b).tail = scope.tail := by
  cases scope <;> rfl

@[simp] theorem flags_push (b : Binding) : (scope.push b).flags = scope.flags := by
  cases scope <;> rfl

@[simp] theorem tail_replace (name : String) (symbol : Symbol) :
    (scope.replace name symbol).tail = scope.tail := by
  cases scope <;> rfl

@[simp] theorem flags_replace (name : String) (symbol : Symbol) :
    (scope.replace name symbol).flags = scope.flags := by
  cases scope <;> rfl

end Scope

namespace Check

variable {α : Type} {s : State}

theorem fresh_ensures {P : Nat → State → Prop} (h : P s.next { s with next := s.next + 1 }) :
    Ensures fresh s P := by
  intro n s' hs'
  cases hs'
  exact h

theorem emit_ensures {P : Unit → State → Prop} {event : Event}
    (h : P () { s with events := event :: s.events }) : Ensures (emit event) s P :=
  .modify h

/-- If a declaration is accepted, the name is bound in the innermost frame. -/
theorem declare_ensures {P : Unit → State → Prop} {name : String} {symbol : Symbol} {span : Span}
    (h : ∀ place events, P () { s with scope := s.scope.push ⟨name, symbol, place⟩, events }) :
    Ensures (declare name symbol span) s P := by
  unfold declare
  extract_lets place
  refine .bind (.get ?_)
  have h := h place
  cases hscope : s.scope with
  | nil =>
    refine .bind (.pure (emit_ensures ?_))
    rw [hscope] at h
    have hs : { s with scope := [] } = s := by rw [← hscope]
    exact hs ▸ h _
  | cons frame outer =>
    rw [hscope] at h
    dsimp only [Frame.declare]
    cases frame.find? name with
    | some previous => exact .bind (.fail _ _)
    | none => exact .bind (.modify (emit_ensures (h _)))

/-- If there is such a binding, its symbol is replaced. -/
theorem update_ensures {P : Unit → State → Prop} {name : String} {symbol : Symbol}
    (h : P () { s with scope := s.scope.replace name symbol }) :
    Ensures (update name symbol) s P := by
  refine .modify ?_
  cases hscope : s.scope with
  | nil =>
    rw [hscope] at h
    have hs : { s with scope := [] } = s := by rw [← hscope]
    exact hs ▸ h
  | cons frame outer =>
    rw [hscope] at h
    exact h

/-- The state inside a frame of its own. -/
def State.enter (s : State) (change : Flags → Flags) : State :=
  { s with scope := s.scope.child change }

theorem nested_ensures {P : α → State → Prop} {change : Flags → Flags} {body : Check α}
    (h : Ensures body (s.enter change) fun a s₂ => P a { s₂ with scope := s₂.scope.tail }) :
    Ensures (nested change body) s P :=
  .bind (.modify (.bind (h.mono fun _ _ ha => .bind (.modify (.pure ha)))))

end Check

end Dragon
