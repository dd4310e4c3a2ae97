import Dragon.Symbol

/-!
# Tables of objects

An object contains itself when its fields lead back to it through fields that hold objects directly;
a list, an optional or a function of objects need not hold one.
-/
namespace Dragon

abbrev Objects := List ObjectInfo

namespace Objects

def get? (objects : Objects) (id : Nat) : Option ObjectInfo := objects.find? (·.ref.id == id)

/-- Changes the entry of a number. -/
def modify (objects : Objects) (id : Nat) (change : ObjectInfo → ObjectInfo) : Objects :=
  objects.map fun o => if o.ref.id == id then change o else o

/-- The table without the entry of a number. -/
def without (objects : Objects) (id : Nat) : Objects := objects.filter (·.ref.id != id)

/-- One more than the number of fields, for every object. -/
def weight : Objects → Nat
  | [] => 0
  | o :: rest => o.fields.length + 1 + weight rest

theorem weight_without_le (objects : Objects) (id : Nat) :
    weight (objects.without id) ≤ weight objects := by
  induction objects with
  | nil => simp [without]
  | cons a rest ih =>
    by_cases h : a.ref.id = id <;> simp [weight, without, h] at ih ⊢ <;> omega

theorem weight_without_add_le {objects : Objects} {o : ObjectInfo} {id : Nat}
    (found : objects.get? id = some o) :
    weight (objects.without id) + (o.fields.length + 1) ≤ weight objects := by
  induction objects with
  | nil => simp [get?] at found
  | cons a rest ih =>
    by_cases h : a.ref.id = id
    · have := weight_without_le rest id
      simp [get?, h] at found
      subst found
      simp [weight, without, h] at this ⊢
      omega
    · have := ih (by simpa [get?, h] using found)
      simp [weight, without, h] at this ⊢
      omega

/-- Whether the parts of some objects, and theirs in turn, come to a target. Objects not visited
yet are in `left`. -/
def reaches (target : Nat) (work : List Nat) (left : Objects) : Bool :=
  match work with
  | [] => false
  | id :: work =>
    if id == target then true
    else match _h : left.get? id with
      | none => reaches target work left
      | some o => reaches target (o.parts ++ work) (left.without id)
termination_by work.length + weight left
decreasing_by
  · simp
  · have := weight_without_add_le _h
    have := o.length_parts_le
    simp only [List.length_append, List.length_cons]
    omega

/-- Whether an object would contain itself. -/
def selfContaining (objects : Objects) (id : Nat) : Bool :=
  match objects.get? id with
  | none => false
  | some o => reaches id o.parts objects

end Objects

end Dragon
