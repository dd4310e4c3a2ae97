import Dragon.Type.Objects

/-!
# Symbols as they are shown

How symbols are shown: in a word what they are, and in a line what they are called and how they are
used.
-/
namespace Dragon.Editor

/-- What a symbol is to the writer of a program. -/
inductive Role where
  | method | function | guild | matter | parameter | mutable | constant
  deriving DecidableEq, Repr

def Role.text : Role → String
  | method => "method"
  | function => "function"
  | guild => "guild"
  | matter => "matter"
  | parameter => "parameter"
  | mutable => "variable"
  | constant => "constant"

def roleOf (objects : Objects) : Symbol → Role
  | .func f _ => if f.isMethod then .method else .function
  | .object o => if (objects.get? o.id).any (·.isGuild) then .guild else .matter
  | .param _ => .parameter
  | .var v => if v.mutable then .mutable else .constant

/-- A function that has no type, since its parameters or result could not be resolved. -/
structure Untyped where
  function : String
  deriving DecidableEq, Repr

def Untyped.message (_ : Untyped) : String := "'NoneType' object has no attribute 'return_type'"

/-- Names with their types. -/
def parameterList (params : List (String × Ty)) : String :=
  ", ".intercalate (params.map fun (name, type) => s!"{name}: {type.describe}")

/-- A symbol under a name, with its type or what it takes. -/
def display (objects : Objects) (name : String) : Symbol → Except Untyped String
  | .object o =>
    let signature := ((objects.get? o.id).map (·.signature)).getD []
    .ok s!"{name}({parameterList signature})"
  | .func f true =>
    let params := parameterList (f.params.map fun p => (p.name, p.type))
    .ok s!"{name}({params}) -> {f.result.describe}"
  | .func f false => .error ⟨f.name⟩
  | .param p => .ok s!"{name}: {p.type.describe}"
  | .var v => .ok s!"{name}: {v.type.describe}"

end Dragon.Editor
