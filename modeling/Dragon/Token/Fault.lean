import Dragon.Text.Quoted
import Dragon.Token.Basic

/-!
# Malformed source text

A fault has a cause, found while cutting the text into tokens or while reading the tokens, and a
place.
-/
namespace Dragon

inductive SyntaxCause where
  | unterminatedString
  | unterminatedInterpolation
  | unknownEscape (code : Char)
  | malformedNumber (text : String)
  | unexpectedCharacter (c : Char)
  | expected (wanted : Kind) (found : String)
  | expressionExpected (found : String)
  | typeExpected
  | statementExpected
  | secondForge (guild : String)
  | exhausted
  deriving DecidableEq, Repr

namespace SyntaxCause

def message : SyntaxCause → String
  | unterminatedString => "unterminated string literal"
  | unterminatedInterpolation => "unterminated string interpolation"
  | unknownEscape code => s!"unknown escape sequence '\\{code}'"
  | malformedNumber text => s!"malformed number {Text.quoted text}"
  | unexpectedCharacter c => s!"unexpected character {Text.quoted c.toString}"
  | expected wanted found => s!"expected '{wanted.description}' but found {Text.quoted found}"
  | expressionExpected found => s!"expected an expression but found {Text.quoted found}"
  | typeExpected => "type expected"
  | statementExpected => "expected a statement"
  | secondForge guild => s!"guild {guild} has more than one forge"
  | exhausted => "input nested too deeply"

/-- Faults of the characters and faults of the tokens have codes of their own. -/
def code : SyntaxCause → String
  | unterminatedString | unterminatedInterpolation | unknownEscape _ | malformedNumber _
  | unexpectedCharacter _ => "E100"
  | expected _ _ | expressionExpected _ | typeExpected | statementExpected | secondForge _
  | exhausted => "E200"

end SyntaxCause

structure SyntaxFault where
  cause : SyntaxCause
  span : Span
  deriving DecidableEq, Repr

end Dragon
