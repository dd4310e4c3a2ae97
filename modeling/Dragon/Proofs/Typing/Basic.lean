import Dragon.Scope.Library
import Dragon.Type.Objects
import Dragon.Typed.Basic
import Mathlib.Data.List.Forall2

/-!
# Well typed programs

The rules are told from the typed program alone: from what stands in it, from the symbols that are
declared where it stands, and from the table of all objects. Nothing in them refers to how a program
was checked.
-/
namespace Dragon

/-- Whether there are values of a type. -/
def Ty.HasValues (t : Ty) : Prop := t ≠ .zilch

/-- Whether a member is one of an object's. -/
def ObjectInfo.Has (o : ObjectInfo) : Member → Prop
  | .field f => f ∈ o.fields
  | .method m => m ∈ o.methods

/-- A function has the type that its parameters and its result make. -/
def Func.Signed (f : Func) : Prop :=
  f.type = .function (f.params.map (·.type)) f.result (f.params.map (·.name))

/-- What can be named at some point of a program, and what surrounds it. -/
structure Context where
  symbols : List Symbol
  flags : Flags

namespace Context

def bind (Γ : Context) (symbols : List Symbol) : Context :=
  { Γ with symbols := symbols ++ Γ.symbols }

def within (Γ : Context) (flags : Flags) : Context := { Γ with flags }

def looping (Γ : Context) : Context := Γ.within { Γ.flags with inLoop := true }

/-- The context of a program: the names of the library. -/
def initial : Context := ⟨Library.frame.bindings.map (·.symbol), {}⟩

end Context

namespace Typed

def Value.type : Value → Ty
  | int _ => .int
  | float _ => .float
  | bool _ => .bool
  | string _ => .string

/-- The types of an operation and its operands. -/
def BinaryTyped (op : BinaryOp) (left right result : Ty) : Prop :=
  match op with
  | .and | .or => left = .bool ∧ right = .bool ∧ result = .bool
  | .eq | .ne =>
    left.HasValues ∧ right.HasValues ∧ left.equivalent right = true ∧ result = .bool
  | .lt | .le | .gt | .ge => left.isNumeric = true ∧ right = left ∧ result = .bool
  | .add => (left.isNumeric = true ∨ left = .string) ∧ right = left ∧ result = left
  | .sub | .mul | .div | .pow => left.isNumeric = true ∧ right = left ∧ result = left

def UnaryTyped (op : UnaryOp) (operand result : Ty) : Prop :=
  match op with
  | .neg => operand.isNumeric = true ∧ result = operand
  | .not => operand = .bool ∧ result = .bool
  | .some => operand.HasValues ∧ result = .optional operand

/-- The type of the object that a member is asked of. -/
def receiverType (access : Access) (ref : ObjectRef) : Ty :=
  match access with
  | .plain => .object ref
  | .optional => .optional (.object ref)

/-- Asking an optional object for a member makes an optional of it, unless it is one. -/
def accessType (access : Access) (member : Ty) : Ty :=
  match access, member with
  | .plain, t => t
  | .optional, .optional t => .optional t
  | .optional, t => .optional t

def Arg.name : Arg → Option String
  | mk name _ => name

def Arg.value : Arg → Expr
  | mk _ value => value

/-- A value for a target of a type. -/
def Expr.Suits (e : Expr) (target : Ty) : Prop :=
  e.type.HasValues ∧ e.type.assignable target = true

section Expressions

variable (T : Objects) (Γ : Context)

mutual

def Expr.WellTyped : Expr → Prop
  | .var v => .var v ∈ Γ.symbols
  | .param p => .param p ∈ Γ.symbols
  | .func f => .func f true ∈ Γ.symbols
  | .self type => ∃ ref, Γ.flags.guild = some ref ∧ type = .object ref
  | .literal value type => type = value.type
  | .unary op operand type => operand.WellTyped ∧ UnaryTyped op operand.type type
  | .binary op left right type =>
    left.WellTyped ∧ right.WellTyped ∧ BinaryTyped op left.type right.type type
  | .ternary test consequent alternate type =>
    test.WellTyped ∧ consequent.WellTyped ∧ alternate.WellTyped ∧ test.type = .bool ∧
      consequent.type.HasValues ∧ alternate.type.HasValues ∧
      consequent.type.equivalent alternate.type = true ∧ type = consequent.type
  | .coalesce optional fallback type =>
    optional.WellTyped ∧ fallback.WellTyped ∧ optional.type = .optional type ∧ fallback.Suits type
  | .emptyOptional type => ∃ base, type = .optional base
  | .list elements type =>
    elementsWellTyped elements ∧ elements ≠ [] ∧ ∃ element, type = .list element ∧
      ∀ e ∈ elements, e.type.HasValues ∧ e.type.equivalent element = true
  | .emptyList type => ∃ element, type = .list element
  | .subscript collection index type =>
    collection.WellTyped ∧ index.WellTyped ∧ index.type = .int ∧
      (collection.type = .list type ∨ collection.type = .string ∧ type = .string)
  | .member object access member type =>
    object.WellTyped ∧ ∃ ref info, object.type = receiverType access ref ∧
      T.get? ref.id = some info ∧ info.Has member ∧ type = accessType access member.type
  | .call callee args type =>
    callee.WellTyped ∧ argsWellTyped args ∧ ∃ params names,
      callee.type = .function params type names ∧
      args.Forall₂ (fun a t => a.value.Suits t) params ∧
      (names = [] ∨ args.map Arg.name = names.map some)
  | .construct object args type =>
    argsWellTyped args ∧ .object object ∈ Γ.symbols ∧ type = .object object ∧
      ∃ info, T.get? object.id = some info ∧
        args.Forall₂ (fun a p => a.name = some p.1 ∧ a.value.Suits p.2) info.signature
  | .template parts type => partsWellTyped parts ∧ type = .string
  | .foreignUnary .. | .foreignBinary .. | .foreignMember .. | .object _ | .field _
  | .misplaced .. => False

def elementsWellTyped : List Expr → Prop
  | [] => True
  | e :: rest => e.WellTyped ∧ elementsWellTyped rest

def argsWellTyped : List Arg → Prop
  | [] => True
  | .mk _ value :: rest => value.WellTyped ∧ argsWellTyped rest

def partsWellTyped : List Part → Prop
  | [] => True
  | .text _ :: rest => partsWellTyped rest
  | .hole e :: rest => e.WellTyped ∧ e.type.HasValues ∧ partsWellTyped rest

end

end Expressions

/-! ### Statements -/

/-- The symbols that a statement declares for those after it. -/
def Stmt.declared : Stmt → List Symbol
  | .declare _ v _ => [.var v]
  | .function f _ => [.func f true]
  | .object _ ref _ _ _ => [.object ref]
  | _ => []

def Method.func : Method → Func
  | mk f _ => f

/-- The context of the body of a function. -/
def bodyContext (Γ : Context) (f : Func) (guild : Option ObjectRef) : Context :=
  (Γ.bind (f.params.map .var)).within ⟨false, some f, guild⟩

/-- The context of the values that a forge gives to fields. -/
def forgeContext (Γ : Context) (ref : ObjectRef) (parameters : Option (List ForgeParam)) :
    Context :=
  (Γ.bind ((parameters.getD []).map .param)).within ⟨false, none, some ref⟩

/-- Fields of a matter have no values, those of a guild have one each. -/
def FieldInit.WellTyped (T : Objects) (Γ : Context) (kind : ObjectKind) (f : FieldInit) : Prop :=
  match kind, f.value with
  | .matter, none => True
  | .guild, some e => e.WellTyped T Γ ∧ e.Suits f.field.type
  | _, _ => False

mutual

def Stmt.WellTyped (T : Objects) (Γ : Context) : Stmt → Prop
  | .declare mutable v init =>
    init.WellTyped T Γ ∧ init.Suits v.type ∧ v.type.HasValues ∧ v.mutable = mutable
  | .function f body =>
    f.Signed ∧ blockWellTyped T (bodyContext (Γ.bind [.func f true]) f none) body
  | .object kind ref fields parameters methods =>
    let Γ := Γ.bind [.object ref]
    T.get? ref.id = some ⟨ref, fields.map (·.field), parameters, methods.map Method.func⟩ ∧
      (parameters.isSome = true ↔ kind = .guild) ∧ (kind = .matter → methods = []) ∧
      (∀ f ∈ fields, f.WellTyped T (forgeContext Γ ref parameters) kind) ∧
      methodsWellTyped T Γ ref methods
  | .print e => e.WellTyped T Γ ∧ e.type.HasValues
  | .increment target | .decrement target => target.WellTyped T Γ ∧ target.type.isNumeric = true
  | .assign target source => target.WellTyped T Γ ∧ source.WellTyped T Γ ∧ source.Suits target.type
  | .return_ e => ∃ f, Γ.flags.function = some f ∧ f.result.HasValues ∧ e.WellTyped T Γ ∧
      e.Suits f.result
  | .shortReturn => ∃ f, Γ.flags.function = some f ∧ f.result = .zilch
  | .branch test body alternate =>
    test.WellTyped T Γ ∧ test.type = .bool ∧ blockWellTyped T Γ body ∧ alternate.WellTyped T Γ
  | .while_ test body => test.WellTyped T Γ ∧ test.type = .bool ∧ blockWellTyped T Γ.looping body
  | .repeat_ count body => count.WellTyped T Γ ∧ count.type = .int ∧ blockWellTyped T Γ.looping body
  | .range iterator low _ high body =>
    low.WellTyped T Γ ∧ low.type = .int ∧ high.WellTyped T Γ ∧ high.type = .int ∧
      iterator.type = .int ∧ blockWellTyped T (Γ.looping.bind [.var iterator]) body
  | .forEach iterator collection body =>
    collection.WellTyped T Γ ∧ collection.type = .list iterator.type ∧
      blockWellTyped T (Γ.looping.bind [.var iterator]) body
  | .break_ => Γ.flags.inLoop = true
  | .call e => e.WellTyped T Γ
  | .foreignRange .. | .expr _ | .bare .. | .misplaced .. => False

def blockWellTyped (T : Objects) (Γ : Context) : List Stmt → Prop
  | [] => True
  | s :: rest => s.WellTyped T Γ ∧ blockWellTyped T (Γ.bind s.declared) rest

def methodsWellTyped (T : Objects) (Γ : Context) (ref : ObjectRef) : List Method → Prop
  | [] => True
  | .mk f body :: rest =>
    f.Signed ∧ blockWellTyped T (bodyContext Γ f (some ref)) body ∧ methodsWellTyped T Γ ref rest

def Alternate.WellTyped (T : Objects) (Γ : Context) : Alternate → Prop
  | .none => True
  | .block body => blockWellTyped T Γ body
  | .chain test body alternate =>
    test.WellTyped T Γ ∧ test.type = .bool ∧ blockWellTyped T Γ body ∧ alternate.WellTyped T Γ

end

def Program.WellTyped (T : Objects) (p : Program) : Prop :=
  blockWellTyped T .initial p.statements

end Typed

end Dragon
