/-!
# Types

Lists, optionals and functions are compared by their structure, objects by identity. A function type
that comes from a declaration remembers the names of the parameters; they play no part in
comparisons.
-/
namespace Dragon

inductive Prim where
  | zilch | any | int | float | string | bool
  deriving DecidableEq, Repr

namespace Prim

def all : List Prim := [zilch, any, int, float, string, bool]

def name : Prim → String
  | zilch => "zilch" | any => "any" | int => "int" | float => "float" | string => "string"
  | bool => "bool"

def ofName? (name : String) : Option Prim := all.find? (·.name == name)

end Prim

/-- A matter or a guild, known by its number. -/
structure ObjectRef where
  id : Nat
  name : String
  deriving DecidableEq, Repr

inductive Ty where
  | prim (p : Prim)
  | list (element : Ty)
  | optional (base : Ty)
  | function (params : List Ty) (result : Ty) (names : List String)
  | object (ref : ObjectRef)
  deriving Repr

namespace Ty

@[match_pattern] abbrev zilch : Ty := prim .zilch
@[match_pattern] abbrev any : Ty := prim .any
@[match_pattern] abbrev int : Ty := prim .int
@[match_pattern] abbrev float : Ty := prim .float
@[match_pattern] abbrev string : Ty := prim .string
@[match_pattern] abbrev bool : Ty := prim .bool

/-- Whether a type is a given primitive one. -/
def is : Ty → Prim → Bool
  | prim p, q => p == q
  | _, _ => false

def isNumeric (t : Ty) : Bool := t.is .int || t.is .float

/-! ### Equivalence -/

mutual

/-- Equality up to the names of parameters; objects are equal when they are the same one. -/
def equivalent : Ty → Ty → Bool
  | prim p, prim q => p == q
  | list a, list b => a.equivalent b
  | optional a, optional b => a.equivalent b
  | function ps r _, function qs s _ => r.equivalent s && allEquivalent ps qs
  | object a, object b => a.id == b.id
  | _, _ => false

def allEquivalent : List Ty → List Ty → Bool
  | [], [] => true
  | p :: ps, q :: qs => p.equivalent q && allEquivalent ps qs
  | _, _ => false

end

/-! ### Assignability -/

mutual

/-- Whether a value of one type may stand where the other is expected. Results of functions vary
with the function, parameters against it. -/
def assignable : (source target : Ty) → Bool
  | function ps r ns, target =>
    target.is .any || (function ps r ns).equivalent target ||
      match target with
      | function qs s _ => r.assignable s && allAccept ps qs
      | _ => false
  | source, target => target.is .any || source.equivalent target

/-- Assignability with the expected type first. -/
def accepts : (target source : Ty) → Bool
  | function ps r ns, source =>
    source.equivalent (function ps r ns) ||
      match source with
      | function qs s _ => r.accepts s && allAssignable ps qs
      | _ => false
  | target, source => target.is .any || source.equivalent target

def allAccept : (targets sources : List Ty) → Bool
  | [], [] => true
  | p :: ps, q :: qs => p.accepts q && allAccept ps qs
  | _, _ => false

def allAssignable : (sources targets : List Ty) → Bool
  | [], [] => true
  | p :: ps, q :: qs => p.assignable q && allAssignable ps qs
  | _, _ => false

end

/-! ### Description -/

mutual

/-- A type as it is written in the language. -/
def describe : Ty → String
  | prim p => p.name
  | list element => s!"[{element.describe}]"
  | optional base => s!"{base.describe}?"
  | function params result _ => s!"({describeAll params})->{result.describe}"
  | object ref => ref.name

def describeAll : List Ty → String
  | [] => ""
  | [t] => t.describe
  | t :: rest => s!"{t.describe}, {describeAll rest}"

end

/-! ### Parts -/

def element? : Ty → Option Ty
  | list element => some element
  | _ => none

def base? : Ty → Option Ty
  | optional base => some base
  | _ => none

def object? : Ty → Option ObjectRef
  | object ref => some ref
  | _ => none

end Ty

end Dragon
