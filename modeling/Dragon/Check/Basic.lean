import Dragon.Check.Violation
import Dragon.Event
import Dragon.Scope.Library
import Dragon.Type.Objects

/-!
# The state of a check and its elementary steps

A failed check leaves the state as it was at the failure, so that what was declared up to there can
still be looked up.
-/
namespace Dragon

namespace Check

structure State where
  /-- The number of the next symbol. -/
  next : Nat
  /-- What is known of the matters and guilds declared so far. -/
  objects : Objects
  scope : Scope
  /-- What was done, the latest first. -/
  events : List Event

/-- The state before a program: a frame for its own names inside the library's. -/
def State.initial : State := ⟨Library.nextId, [], [{}, Library.frame], []⟩

/-- The scope of the program's own names, in the library's. -/
def State.globals (s : State) : Scope := s.scope.drop (s.scope.length - 2)

end Check

abbrev Check := EStateM CheckFailure Check.State

namespace Check

/-- Stops with a violation at a place. -/
def fail (violation : Violation) (span : Span) : Check α :=
  throw (.violation ⟨violation, span⟩)

def require (holds : Bool) (violation : Violation) (span : Span) : Check Unit :=
  if holds then pure () else fail violation span

def emit (event : Event) : Check Unit := modify fun s => { s with events := event :: s.events }

def fresh : Check Nat := modifyGet fun s => (s.next, { s with next := s.next + 1 })

def lookup (name : String) : Check (Option Symbol) := return (← get).scope.lookup? name

def flags : Check Flags := return (← get).scope.flags

/-- Binds a name in the innermost frame. Matters and guilds keep no place for later messages. -/
def declare (name : String) (symbol : Symbol) (span : Span) : Check Unit := do
  let place := match symbol with
    | .object _ => none
    | _ => some span
  match (← get).scope with
  | [] => pure ()
  | frame :: outer =>
    match frame.declare ⟨name, symbol, place⟩ with
    | .error previous => fail (.alreadyDeclared name previous.span) span
    | .ok frame => modify fun s => { s with scope := frame :: outer }
  emit (.declared name symbol.kindName)

/-- Replaces the symbol of a name in the innermost frame. -/
def update (name : String) (symbol : Symbol) : Check Unit :=
  modify fun s =>
    match s.scope with
    | [] => s
    | frame :: outer => { s with scope := frame.update name symbol :: outer }

/-- Runs a check in a frame of its own. -/
def nested (change : Flags → Flags) (body : Check α) : Check α := do
  modify fun s => { s with scope := s.scope.child change }
  let result ← body
  modify fun s => { s with scope := s.scope.tail }
  pure result

def objectInfo (ref : ObjectRef) : Check ObjectInfo :=
  return ((← get).objects.get? ref.id).getD ⟨ref, [], none, []⟩

def addObject (info : ObjectInfo) : Check Unit :=
  modify fun s => { s with objects := s.objects ++ [info] }

def modifyObject (ref : ObjectRef) (change : ObjectInfo → ObjectInfo) : Check Unit :=
  modify fun s => { s with objects := s.objects.modify ref.id change }

end Check

end Dragon
