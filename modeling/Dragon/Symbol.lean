import Dragon.Type.Basic

/-!
# Symbols

Names stand for variables, parameters of forges, functions, and matters and guilds. Every one has a
number of its own, and two are the same exactly when their numbers are.
-/
namespace Dragon

structure Var where
  id : Nat
  name : String
  type : Ty
  mutable : Bool
  intrinsic : Bool
  deriving Repr

/-- A parameter of the forge of a guild. It can be read but not assigned. -/
structure ForgeParam where
  id : Nat
  name : String
  type : Ty
  deriving Repr

structure Func where
  id : Nat
  name : String
  params : List Var
  type : Ty
  isMethod : Bool
  intrinsic : Bool
  deriving Repr

/-- The type of a function's results. -/
def Func.result (f : Func) : Ty :=
  match f.type with
  | .function _ result _ => result
  | _ => .zilch

/-- The field of an object with its place among the fields. -/
structure Field where
  owner : Nat
  index : Nat
  name : String
  type : Ty
  deriving Repr

inductive Member where
  | field (f : Field)
  | method (m : Func)
  deriving Repr

namespace Member

def name : Member → String
  | field f => f.name
  | method m => m.name

def type : Member → Ty
  | field f => f.type
  | method m => m.type

end Member

/-- What is known of a matter or a guild. A guild has parameters for its construction, a matter
takes its fields in order. -/
structure ObjectInfo where
  ref : ObjectRef
  fields : List Field
  parameters : Option (List ForgeParam)
  methods : List Func
  deriving Repr

namespace ObjectInfo

def isGuild (o : ObjectInfo) : Bool := o.parameters.isSome

/-- Names and types of what the construction of an object takes. -/
def signature (o : ObjectInfo) : List (String × Ty) :=
  match o.parameters with
  | some params => params.map fun p => (p.name, p.type)
  | none => o.fields.map fun f => (f.name, f.type)

/-- The first field of a name, or else the first method. -/
def member? (o : ObjectInfo) (name : String) : Option Member :=
  match o.fields.find? (·.name == name) with
  | some f => some (.field f)
  | none => (o.methods.find? (·.name == name)).map .method

/-- The objects that the fields hold directly. -/
def parts (o : ObjectInfo) : List Nat := o.fields.filterMap fun f => f.type.object?.map (·.id)

theorem length_parts_le (o : ObjectInfo) : o.parts.length ≤ o.fields.length :=
  List.length_filterMap_le ..

end ObjectInfo

inductive Symbol where
  | var (v : Var)
  | param (p : ForgeParam)
  /-- A function is incomplete as long as its parameters and result are not resolved. -/
  | func (f : Func) (complete : Bool)
  | object (o : ObjectRef)
  deriving Repr

namespace Symbol

def id : Symbol → Nat
  | var v => v.id
  | param p => p.id
  | func f _ => f.id
  | object o => o.id

/-- The kind of a symbol, as logs name it. -/
def kindName : Symbol → String
  | var _ => "Variable"
  | param _ => "FieldArgument"
  | func _ _ => "Function"
  | object _ => "ObjectType"

end Symbol

end Dragon
