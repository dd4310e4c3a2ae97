import Dragon.Type.Objects
import Mathlib.Logic.Relation

/-!
# Objects that contain themselves

The search for a way back to an object forgets every object that it has passed, whether its parts
are still being looked at or not. Nothing is lost by that: the rest of a way after its last visit to
a forgotten object starts at one of the parts of that object, and these were put on the list of what
is left to look at.
-/
namespace Dragon

theorem ObjectInfo.mem_parts_iff {o : ObjectInfo} {part : Nat} :
    part ∈ o.parts ↔ ∃ f ∈ o.fields, ∃ ref, f.type = .object ref ∧ ref.id = part := by
  have hobject (t : Ty) : (∃ ref, t.object? = some ref ∧ ref.id = part) ↔
      ∃ ref, t = .object ref ∧ ref.id = part := by
    cases t <;> simp [Ty.object?]
  simp only [parts, List.mem_filterMap, Option.map_eq_some_iff, hobject]

namespace Objects

variable {objects left : Objects} {o : ObjectInfo} {id a b target : Nat} {work : List Nat}

/-- An object of a table has a field whose type is an object. Lists, optionals and functions of an
object do not count. -/
def Holds (objects : Objects) (id part : Nat) : Prop :=
  ∃ o, objects.get? id = some o ∧ ∃ f ∈ o.fields, ∃ ref, f.type = .object ref ∧ ref.id = part

theorem holds_iff_mem_parts (hget : objects.get? id = some o) :
    objects.Holds id a ↔ a ∈ o.parts := by
  simp only [Holds, hget, Option.some.injEq, exists_eq_left', ObjectInfo.mem_parts_iff]

theorem not_holds_of_get? (hget : objects.get? id = none) : ¬ objects.Holds id a := by
  rintro ⟨o, ho, -⟩
  rw [hget] at ho
  cases ho

/-! ### Tables without an object -/

theorem get?_without_of_ne (hne : a ≠ id) : (objects.without id).get? a = objects.get? a := by
  rw [get?, without, List.find?_filter, get?]
  congr 1
  funext o
  by_cases ho : o.ref.id = a
  · simp [ho, hne]
  · simp [ho]

theorem get?_without_self : (objects.without id).get? id = none := by
  simp [get?, without]

theorem holds_without_iff : (objects.without id).Holds a b ↔ a ≠ id ∧ objects.Holds a b := by
  by_cases ha : a = id
  · subst ha
    simp [not_holds_of_get? get?_without_self]
  · simp [Holds, get?_without_of_ne ha, ha]

/-- A way to a target either avoids an object or has its end, from a part of that object on,
avoid it. -/
theorem avoids_or_leaves (hget : objects.get? id = some o) (hne : target ≠ id)
    (h : Relation.ReflTransGen objects.Holds a target) :
    (a ≠ id ∧ Relation.ReflTransGen (objects.without id).Holds a target) ∨
      ∃ part ∈ o.parts, Relation.ReflTransGen (objects.without id).Holds part target := by
  induction h using Relation.ReflTransGen.head_induction_on with
  | refl => exact .inl ⟨hne, .refl⟩
  | @head a b hab _ ih =>
    obtain ⟨-, hrest⟩ | hleaves := ih
    · by_cases ha : a = id
      · subst ha
        exact .inr ⟨b, (holds_iff_mem_parts hget).1 hab, hrest⟩
      · exact .inl ⟨ha, .head (holds_without_iff.2 ⟨ha, hab⟩) hrest⟩
    · exact .inr hleaves

/-! ### The search -/

/-- The search comes to its target just if a way leads there from something on the list, through
objects that were not visited yet. -/
theorem reaches_iff :
    reaches target work left = true ↔
      ∃ a ∈ work, Relation.ReflTransGen left.Holds a target := by
  fun_induction reaches target work left with
  | case1 => simp
  | case2 left id work heq =>
    obtain rfl : id = target := by simpa using heq
    exact iff_of_true rfl ⟨id, List.mem_cons_self, .refl⟩
  | case3 left id work hne hget ih =>
    have hne : id ≠ target := by simpa using hne
    have hnone : ¬ Relation.ReflTransGen left.Holds id target := by
      intro hway
      obtain heq | ⟨b, hb, -⟩ := hway.cases_head
      · exact hne heq
      · exact not_holds_of_get? hget hb
    simp only [ih, List.mem_cons, exists_eq_or_imp, hnone, false_or]
  | case4 left id work hne o hget ih =>
    have hne : target ≠ id := fun heq => by simp [heq] at hne
    rw [ih]
    constructor
    · rintro ⟨a, ha, hway⟩
      have hway : Relation.ReflTransGen left.Holds a target :=
        Relation.ReflTransGen.mono (fun _ _ h => (holds_without_iff.1 h).2) a target hway
      obtain hpart | hwork := List.mem_append.1 ha
      · exact ⟨id, List.mem_cons_self, .head ((holds_iff_mem_parts hget).2 hpart) hway⟩
      · exact ⟨a, List.mem_cons_of_mem _ hwork, hway⟩
    · rintro ⟨a, ha, hway⟩
      obtain ⟨haway, hway⟩ | ⟨part, hpart, hway⟩ := avoids_or_leaves hget hne hway
      · have hwork : a ∈ work := (List.mem_cons.1 ha).resolve_left haway
        exact ⟨a, List.mem_append_right _ hwork, hway⟩
      · exact ⟨part, List.mem_append_left _ hpart, hway⟩

theorem selfContaining_of_holds (h : objects.Holds id id) : objects.selfContaining id = true := by
  have ⟨o, hget, _⟩ := h
  rw [selfContaining, hget]
  exact reaches_iff.2 ⟨id, (holds_iff_mem_parts hget).1 h, .refl⟩

/-- In any table, however its objects hold each other, the search ends, and an object contains
itself just if a chain of one or more fields that hold objects leads from it back to it. -/
theorem selfContaining_iff (objects : Objects) (id : Nat) :
    objects.selfContaining id = true ↔ Relation.TransGen objects.Holds id id := by
  rw [Relation.TransGen.head'_iff, selfContaining]
  split
  next hget => simp [not_holds_of_get? hget]
  next o hget => simp only [reaches_iff, holds_iff_mem_parts hget]

end Objects

end Dragon
