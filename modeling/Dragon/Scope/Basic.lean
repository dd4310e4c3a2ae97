import Dragon.Span
import Dragon.Symbol

/-!
# Scopes

A frame binds names, in the order in which they were declared, and knows whether it is inside a
loop, a function or a guild. A scope is a frame and those around it, innermost first, and a name
means what the innermost frame that binds it says.
-/
namespace Dragon

/-- A name with its symbol, and the place of the declaration if there is one to show. -/
structure Binding where
  name : String
  symbol : Symbol
  span : Option Span
  deriving Repr

/-- What surrounds a frame. -/
structure Flags where
  inLoop : Bool := false
  function : Option Func := none
  guild : Option ObjectRef := none
  deriving Repr

structure Frame where
  flags : Flags := {}
  bindings : List Binding := []
  deriving Repr

namespace Frame

def find? (f : Frame) (name : String) : Option Binding := f.bindings.find? (·.name == name)

/-- Binds a name, unless the frame binds it already. -/
def declare (f : Frame) (b : Binding) : Except Binding Frame :=
  match f.find? b.name with
  | some previous => .error previous
  | none => .ok { f with bindings := f.bindings ++ [b] }

/-- Replaces the symbol of a bound name. -/
def update (f : Frame) (name : String) (symbol : Symbol) : Frame :=
  { f with bindings := f.bindings.map fun b => if b.name == name then { b with symbol } else b }

end Frame

/-- Frames from the innermost to the outermost. -/
abbrev Scope := List Frame

namespace Scope

def lookup? (s : Scope) (name : String) : Option Symbol :=
  s.findSome? fun f => (f.find? name).map (·.symbol)

def flags (s : Scope) : Flags := (s.head?.map (·.flags)).getD {}

/-- A scope inside another, with the same surroundings up to a change. -/
def child (s : Scope) (change : Flags → Flags) : Scope := ⟨change s.flags, []⟩ :: s

end Scope

/-- The message for a name that is declared twice. -/
def alreadyDeclared (name : String) : String := s!"Identifier {name} already declared"

end Dragon
