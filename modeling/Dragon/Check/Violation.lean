import Dragon.Scope.Basic
import Dragon.Text.Quoted

/-!
# Violations

Violations of the static rules, each with its code and message, and the other ways in which checking
a program can fail.
-/
namespace Dragon

inductive Violation where
  | alreadyDeclared (name : String) (previous : Option Span)
  | unknownType (name : String)
  | notAType (name : String)
  | zilchVariable (name : String)
  | zilchField (name : String)
  | typeAsValue (name : String)
  | undeclared (name : String)
  | notAssignable (source target : Ty)
  | differentOperands (left right : Ty)
  | differentElements
  | expected (what : String) (got : Ty)
  | expectedValue
  | tooLarge (text : String)
  | argumentCount (required passed : Nat)
  | unnamedArgument (wanted : String)
  | misnamedArgument (given wanted : String)
  | notCallable (type : Ty)
  | noField (object name : String)
  | repeatedField (name : String)
  | repeatedMember (name guild : String)
  | selfContaining (name : String)
  | uninitialized (guild : String) (missing : List String)
  | initializedTwice (name : String)
  | forgeStatement (guild : String)
  | mineOutsideGuild
  | constantTarget (name : String)
  | immutableTarget
  | returnOutsideFunction
  | missingResult (function : String)
  | unexpectedResult (function : String)
  | breakOutsideLoop

namespace Violation

def code : Violation → String
  | unknownType _ | notAType _ | zilchVariable _ | zilchField _ | typeAsValue _ => "E300"
  | alreadyDeclared _ _ => "E301"
  | undeclared _ => "E310"
  | notAssignable _ _ => "E321"
  | differentOperands _ _ => "E322"
  | differentElements => "E323"
  | expected _ _ | expectedValue => "E324"
  | tooLarge _ => "E325"
  | argumentCount _ _ => "E330"
  | unnamedArgument _ | misnamedArgument _ _ => "E331"
  | notCallable _ => "E332"
  | noField _ _ => "E340"
  | repeatedField _ | repeatedMember _ _ => "E341"
  | selfContaining _ => "E342"
  | uninitialized _ _ => "E343"
  | initializedTwice _ => "E344"
  | forgeStatement _ => "E345"
  | mineOutsideGuild => "E346"
  | constantTarget _ | immutableTarget => "E350"
  | returnOutsideFunction => "E360"
  | missingResult _ => "E361"
  | unexpectedResult _ => "E362"
  | breakOutsideLoop => "E370"

def message : Violation → String
  | alreadyDeclared name _ => Dragon.alreadyDeclared name
  | unknownType name => s!"Unknown type {name}"
  | notAType name => s!"Type expected but {name} is not a type"
  | zilchVariable name => s!"Variable {name} cannot have type zilch"
  | zilchField name => s!"Field {name} cannot have type zilch"
  | typeAsValue name => s!"Type {name} cannot be used as a value"
  | undeclared name => s!"Identifier {name} not declared"
  | notAssignable source target =>
    s!"Cannot assign a {source.describe} to a {target.describe}"
  | differentOperands left right =>
    s!"Operands must have the same type, got {left.describe} and {right.describe}"
  | differentElements => "All elements must have the same type"
  | expected what got => s!"Expected {what} but got {got.describe}"
  | expectedValue => "Expected a value but got a zilch call"
  | tooLarge text => s!"Integer {text} is too large"
  | argumentCount required passed => s!"{required} argument(s) required but {passed} passed"
  | unnamedArgument wanted => s!"Argument for {wanted} must be named {wanted}"
  | misnamedArgument given wanted => s!"Argument {given} does not match parameter {wanted}"
  | notCallable type => s!"Call of non-function: {type.describe} is not callable"
  | noField object name => s!"Object type {object} has no field {name}"
  | repeatedField name => s!"Fields must be distinct, {name} repeats"
  | repeatedMember name guild => s!"Member {name} already declared in {guild}"
  | selfContaining name => s!"Object type {name} cannot contain itself"
  | uninitialized guild missing =>
    let names := ", ".intercalate missing
    s!"Not all fields initialized in {guild}: missing {names}"
  | initializedTwice name => s!"Field {name} initialized more than once"
  | forgeStatement guild => s!"The forge of {guild} may only assign fields of mine"
  | mineOutsideGuild => "mine can only be used inside a guild"
  | constantTarget name => s!"Cannot assign to constant {name}"
  | immutableTarget => "Cannot assign to an immutable expression"
  | returnOutsideFunction => "Return can only appear in a function"
  | missingResult function => s!"Function {function} must return a value"
  | unexpectedResult function => s!"Function {function} cannot return a value"
  | breakOutsideLoop => "Break can only appear in a loop"

/-- A second declaration points to the first, if that has a place. -/
def notes : Violation → List String
  | alreadyDeclared _ (some previous) => [s!"previously declared at {previous.location}"]
  | _ => []

end Violation

structure SemanticFault where
  violation : Violation
  span : Span

/-- The ways to fail: a violated rule, an integer with too many digits to be read, or a number that
cannot be read because one of its digits has no decimal value. -/
inductive CheckFailure where
  | violation (fault : SemanticFault)
  | overlongInteger (digits : Nat)
  | unreadableInteger (text : String)
  | unreadableFloat (text : String)

end Dragon
