import Dragon.Proofs.Check.Steps
import Dragon.Proofs.Typing.Expr

/-!
# The steps of a check between valid states

A later state has the entries of an earlier one in its table, for all numbers that were taken, and
the same frames around the innermost. A frame of its own is left as it was entered, whatever was
declared inside.
-/
namespace Dragon

/-! ### Scopes -/

namespace Scope

variable {scope : Scope}

theorem Within.push {symbols : List Symbol} (h : scope.Within symbols) {b : Binding}
    (hb : b.symbol ∈ symbols) : (scope.push b).Within symbols := by
  intro frame hframe b' hb'
  cases scope with
  | nil => cases hframe
  | cons inner outer =>
    obtain rfl | hframe := List.mem_cons.1 hframe
    · obtain hb' | hb' := List.mem_append.1 hb'
      · exact h inner List.mem_cons_self b' hb'
      · obtain rfl := List.mem_singleton.1 hb'
        exact hb
    · exact h frame (List.mem_cons_of_mem _ hframe) b' hb'

/-- Of a name that is bound first by one symbol and then by another, only the latter is left. -/
theorem Within.replace_push {symbols : List Symbol} (h : scope.Within symbols) {b : Binding}
    {symbol : Symbol} (hsymbol : symbol ∈ symbols) :
    ((scope.push b).replace b.name symbol).Within symbols := by
  intro frame hframe b' hb'
  cases scope with
  | nil => cases hframe
  | cons inner outer =>
    obtain rfl | hframe := List.mem_cons.1 hframe
    · obtain ⟨b₀, hb₀, rfl⟩ := List.mem_map.1 hb'
      split
      next => exact hsymbol
      next hne =>
        obtain hb₀ | hb₀ := List.mem_append.1 hb₀
        · exact h inner List.mem_cons_self b₀ hb₀
        · obtain rfl := List.mem_singleton.1 hb₀
          simp at hne
    · exact h frame (List.mem_cons_of_mem _ hframe) b' hb'

end Scope

/-! ### Tables -/

namespace Objects

variable {objects : Objects} {change : ObjectInfo → ObjectInfo} {id : Nat}

/-- Of all entries only that with the number is changed. -/
theorem get?_modify (hchange : ∀ o, (change o).ref = o.ref) (id' : Nat) :
    (objects.modify id change).get? id' =
      (objects.get? id').map fun o => if o.ref.id == id then change o else o := by
  have hsame : ((·.ref.id == id') ∘ fun o => if o.ref.id == id then change o else o) =
      fun o : ObjectInfo => o.ref.id == id' := by
    funext o
    simp only [Function.comp]
    split <;> simp [hchange]
  rw [get?, modify, List.find?_map, hsame, get?]

theorem get?_modify_of_ne {id' : Nat} (hchange : ∀ o, (change o).ref = o.ref) (hne : id' ≠ id) :
    (objects.modify id change).get? id' = objects.get? id' := by
  rw [get?_modify hchange]
  cases hget : objects.get? id' with
  | none => rfl
  | some o => simp [Check.id_of_get? hget, hne]

theorem get?_modify_self (hchange : ∀ o, (change o).ref = o.ref) {info : ObjectInfo}
    (hget : objects.get? id = some info) :
    (objects.modify id change).get? id = some (change info) := by
  rw [get?_modify hchange, hget]
  simp [Check.id_of_get? hget]

theorem mem_modify {o : ObjectInfo} (h : o ∈ objects.modify id change) :
    o ∈ objects ∨ ∃ o' ∈ objects, o = change o' := by
  obtain ⟨o', ho', rfl⟩ := List.mem_map.1 h
  split
  · exact .inr ⟨o', ho', rfl⟩
  · exact .inl ho'

theorem get?_append_of_ne {info : ObjectInfo} (hne : id ≠ info.ref.id) :
    (objects ++ [info]).get? id = objects.get? id := by
  simp [get?, List.find?_append, hne.symm]

theorem get?_append_self {info : ObjectInfo} (hfresh : ∀ o ∈ objects, o.ref.id ≠ info.ref.id) :
    Objects.get? (objects ++ [info]) info.ref.id = some info := by
  have hnone : objects.find? (·.ref.id == info.ref.id) = none := by simpa using hfresh
  simp [get?, List.find?_append, hnone]

end Objects

namespace Check

open Typed

variable {α β : Type} {s s' s₂ : State} {Γ Γ₂ : Context} {T : Objects}

/-! ### Later states -/

structure Follows (s s' : State) : Prop where
  next : s.next ≤ s'.next
  entries : ∀ id < s.next, s'.objects.get? id = s.objects.get? id
  around : s'.scope.tail = s.scope.tail

namespace Follows

theorem refl (s : State) : Follows s s := ⟨Nat.le_refl _, fun _ _ => rfl, rfl⟩

theorem trans (h : Follows s s') (h' : Follows s' s₂) : Follows s s₂ where
  next := Nat.le_trans h.next h'.next
  entries id hid := by rw [h'.entries id (Nat.lt_of_lt_of_le hid h.next), h.entries id hid]
  around := by rw [h'.around, h.around]

end Follows

theorem Extends.before (hT : Extends s' T) (h : Follows s s') : Extends s T :=
  fun id hid => by rw [hT id (Nat.lt_of_lt_of_le hid h.next), h.entries id hid]

theorem Valid.lt_next (valid : Valid s Γ) {id : Nat} {info : ObjectInfo}
    (h : s.objects.get? id = some info) : id < s.next := by
  rw [← id_of_get? h]
  exact valid.known info (mem_of_get? h)

/-! ### What steps keep -/

theorem Valid.advance (valid : Valid s Γ) {n : Nat} (hn : s.next ≤ n) :
    Valid { s with next := n } Γ :=
  { valid with known := fun info h => Nat.lt_of_lt_of_le (valid.known info h) hn }

theorem Follows.advance (h : Follows s s') {n : Nat} (hn : s'.next ≤ n) :
    Follows s { s' with next := n } :=
  { h with next := Nat.le_trans h.next hn }

/-- More symbols in a context than those that are in scope. -/
theorem Valid.bind (valid : Valid s Γ) {symbols : List Symbol}
    (hproper : ∀ symbol ∈ symbols, symbol.Proper)
    (hdeclared : ∀ ref, .object ref ∈ symbols → ∃ info, s.objects.get? ref.id = some info) :
    Valid s (Γ.bind symbols) where
  seen frame hframe b hb := List.mem_append_right _ (valid.seen frame hframe b hb)
  flags := valid.flags
  known := valid.known
  declared ref href := (List.mem_append.1 href).elim (hdeclared ref) (valid.declared ref)
  symbols symbol h := (List.mem_append.1 h).elim (hproper symbol) (valid.symbols symbol)
  objects := valid.objects
  function := valid.function

/-- Only the members of a context count, not their order. -/
theorem Valid.congr (valid : Valid s Γ) (hflags : Γ.flags = Γ₂.flags)
    (hsymbols : ∀ symbol, symbol ∈ Γ.symbols ↔ symbol ∈ Γ₂.symbols) : Valid s Γ₂ where
  seen frame hframe b hb := (hsymbols _).1 (valid.seen frame hframe b hb)
  flags := valid.flags.trans hflags
  known := valid.known
  declared ref href := valid.declared ref ((hsymbols _).2 href)
  symbols symbol h := valid.symbols symbol ((hsymbols _).2 h)
  objects := valid.objects
  function := hflags ▸ valid.function

/-- A name for a symbol that the context has. -/
theorem Valid.push (valid : Valid s Γ) {b : Binding} (hb : b.symbol ∈ Γ.symbols)
    (events : List Event) : Valid { s with scope := s.scope.push b, events } Γ where
  seen := Scope.Within.push valid.seen hb
  flags := (Scope.flags_push b).trans valid.flags
  known := valid.known
  declared := valid.declared
  symbols := valid.symbols
  objects := valid.objects
  function := valid.function

theorem Follows.push (h : Follows s s') (b : Binding) (events : List Event) :
    Follows s { s' with scope := s'.scope.push b, events } :=
  { h with around := (Scope.tail_push b).trans h.around }

/-- A frame of its own leaves the symbols in scope. -/
theorem Valid.enter (valid : Valid s Γ) (change : Flags → Flags)
    (hfunction : ∀ f, (change Γ.flags).function = some f → f.result.Aligned) :
    Valid (s.enter change) (Γ.within (change Γ.flags)) where
  seen frame hframe b hb := by
    obtain rfl | hframe := List.mem_cons.1 hframe
    · cases hb
    · exact valid.seen frame hframe b hb
  flags := by
    show change s.scope.flags = change Γ.flags
    rw [valid.flags]
  known := valid.known
  declared := valid.declared
  symbols := valid.symbols
  objects := valid.objects
  function := hfunction

/-- Behind a frame of its own, the scope is as before it. -/
theorem Valid.leave (valid : Valid s Γ) (inner : Valid s₂ Γ₂)
    (hdeclared : ∀ ref, .object ref ∈ Γ.symbols → ∃ info, s₂.objects.get? ref.id = some info) :
    Valid { s₂ with scope := s.scope } Γ where
  seen := valid.seen
  flags := valid.flags
  known := inner.known
  declared := hdeclared
  symbols := valid.symbols
  objects := inner.objects
  function := valid.function

theorem Follows.leave {change : Flags → Flags} (h : Follows (s.enter change) s₂) :
    Follows s { s₂ with scope := s.scope } :=
  ⟨h.next, h.entries, rfl⟩

/-! ### Outcomes -/

/-- A later state that is valid in some context and after which something holds of all tables. -/
structure Outcome (s : State) (Γ : Context) (R : Objects → Prop) (s' : State) : Prop where
  follows : Follows s s'
  valid : Valid s' Γ
  holds : ∀ T, Extends s' T → R T

namespace Outcome

variable {R R' : Objects → Prop}

theorem imp (h : Outcome s Γ R s') (hR : ∀ T, Extends s' T → R T → R' T) : Outcome s Γ R' s' :=
  ⟨h.follows, h.valid, fun T hT => hR T hT (h.holds T hT)⟩

theorem here (valid : Valid s Γ) (h : ∀ T, Extends s T → R T) : Outcome s Γ R s :=
  ⟨.refl s, valid, h⟩

/-- One outcome after another. -/
theorem after (h : Outcome s Γ R s') (h' : Outcome s' Γ₂ R' s₂) :
    Outcome s Γ₂ (fun T => R T ∧ R' T) s₂ where
  follows := h.follows.trans h'.follows
  valid := h'.valid
  holds T hT := ⟨h.holds T (hT.before h'.follows), h'.holds T hT⟩

end Outcome

/-- A check in a frame of its own leaves the context. -/
theorem nested_outcome {R : α → Objects → Prop} {change : Flags → Flags} {body : Check α}
    (valid : Valid s Γ)
    (h : Ensures body (s.enter change) fun a s₂ => ∃ Γ₂, Outcome (s.enter change) Γ₂ (R a) s₂) :
    Ensures (nested change body) s fun a s' => Outcome s Γ (R a) s' := by
  refine nested_ensures (h.mono fun a s₂ ha => ?_)
  obtain ⟨Γ₂, ha⟩ := ha
  have htail : s₂.scope.tail = s.scope := ha.follows.around
  rw [htail]
  refine ⟨ha.follows.leave, valid.leave ha.valid fun ref href => ?_, ha.holds⟩
  obtain ⟨info, hinfo⟩ := valid.declared ref href
  exact ⟨info, (ha.follows.entries _ (valid.lt_next hinfo)).trans hinfo⟩

end Check

end Dragon
