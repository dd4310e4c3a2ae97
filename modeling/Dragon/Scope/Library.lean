import Dragon.Scope.Basic

/-!
# The library

The names that every program finds declared: one constant and the intrinsic functions.
-/
namespace Dragon.Library

/-- An intrinsic function with the number `id`; its parameters take the numbers after it. -/
def intrinsic (id : Nat) (name : String) (params : List (String × Ty)) (result : Ty) : Func where
  id
  name
  params := params.mapIdx fun i (n, t) => ⟨id + 1 + i, n, t, false, false⟩
  type := .function (params.map (·.2)) result (params.map (·.1))
  isMethod := false
  intrinsic := true

def functions : List Func :=
  [intrinsic 1 "sin" [("x", .float)] .float, intrinsic 3 "cos" [("x", .float)] .float,
   intrinsic 5 "exp" [("x", .float)] .float, intrinsic 7 "ln" [("x", .float)] .float,
   intrinsic 9 "sqrt" [("x", .float)] .float,
   intrinsic 11 "hypot" [("x", .float), ("y", .float)] .float,
   intrinsic 14 "bytes" [("s", .string)] (.list .int)]

def pi : Var := ⟨0, "π", .float, false, true⟩

/-- The frame around every program. -/
def frame : Frame where
  bindings := ⟨"π", .var pi, none⟩ :: functions.map fun f => ⟨f.name, .func f true, none⟩

/-- The first number that the library does not use. -/
def nextId : Nat := 16

end Dragon.Library
