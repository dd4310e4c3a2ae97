import Dragon.Scope.Basic

/-!
# Trees of scopes

Every frame but the first has a parent among the frames made before it, and the scope at a frame is
the path from it to the first.
-/
namespace Dragon

/-- A frame and the number of its parent. -/
structure Nested where
  frame : Frame
  parent : Option Nat
  deriving Repr

/-- Frames numbered in the order in which they were made. -/
structure Nest where
  frames : List Nested
  deriving Repr

namespace Nest

/-- A tree of a single frame, number zero. -/
def root (frame : Frame) : Nest := ⟨[⟨frame, none⟩]⟩

/-- At most `fuel` frames on the way from a frame to the root. -/
def pathWith (n : Nest) : (fuel : Nat) → Nat → Scope
  | 0, _ => []
  | fuel + 1, i =>
    match n.frames[i]? with
    | none => []
    | some nested =>
      nested.frame :: match nested.parent with
        | none => []
        | some parent => n.pathWith fuel parent

/-- The scope at a frame. Parents have smaller numbers, so the number bounds the path. -/
def path (n : Nest) (i : Nat) : Scope := n.pathWith (i + 1) i

def lookup? (n : Nest) (i : Nat) (name : String) : Option Symbol := (n.path i).lookup? name

/-- What a frame itself binds a name to. -/
def local? (n : Nest) (i : Nat) (name : String) : Option Symbol :=
  n.frames[i]?.bind fun nested => (nested.frame.find? name).map (·.symbol)

/-- Adds a frame inside another one; its number is the number of frames before. -/
def child (n : Nest) (i : Nat) (change : Flags → Flags) : Nest :=
  ⟨n.frames ++ [⟨⟨change (n.path i).flags, []⟩, some i⟩]⟩

/-- Binds a name in a frame, or gives the binding that is already there. -/
def declare (n : Nest) (i : Nat) (b : Binding) : Except Binding Nest :=
  match n.frames[i]? with
  | none => .ok n
  | some nested => do
    let frame ← nested.frame.declare b
    pure ⟨n.frames.set i { nested with frame }⟩

end Nest

end Dragon
