import Dragon.Text.Blank
import Dragon.Text.Digit

/-!
# Rules of the highlighter

A rule says how many characters it takes at a place, none if it does not apply; it sees the
character before the place, so that it can tell where a word starts.
-/
namespace Dragon.Highlight

/-- The class of a piece of source text. -/
inductive Style where
  | text | comment | string | escape | interpolation | float | integer | declaration | keyword
  | pseudo | constant | type | operator | function | name | punctuation | error
  deriving DecidableEq, Repr

def Style.path : Style → String
  | text => "Token.Text"
  | comment => "Token.Comment.Single"
  | string => "Token.Literal.String"
  | escape => "Token.Literal.String.Escape"
  | interpolation => "Token.Literal.String.Interpol"
  | float => "Token.Literal.Number.Float"
  | integer => "Token.Literal.Number.Integer"
  | declaration => "Token.Keyword.Declaration"
  | keyword => "Token.Keyword"
  | pseudo => "Token.Name.Builtin.Pseudo"
  | constant => "Token.Keyword.Constant"
  | type => "Token.Keyword.Type"
  | operator => "Token.Operator"
  | function => "Token.Name.Function"
  | name => "Token.Name"
  | punctuation => "Token.Punctuation"
  | error => "Token.Error"

/-- The length of what is taken after a character, zero for nothing. -/
abbrev Rule := (before : Option Char) → List Char → Nat

/-! ### Plain runs and fixed texts -/

/-- All characters of a class, as far as they go. -/
def run (isMember : Char → Bool) : Rule := fun _ cs => (cs.takeWhile isMember).length

/-- The first of some texts that stands at the place. -/
def oneOf (texts : List String) : Rule := fun _ cs =>
  match texts.find? fun t => t.toList.isPrefixOf cs with
  | some t => t.length
  | none => 0

/-- Two slashes and the rest of the line. -/
def comment : Rule := fun _ cs =>
  match cs with
  | '/' :: '/' :: rest => 2 + (rest.takeWhile (· != '\n')).length
  | _ => 0

/-! ### Numbers -/

/-- A digit, and digits and underscores after it. -/
def digits : List Char → Nat
  | c :: rest =>
    if c.isDigit then 1 + (rest.takeWhile fun d => d.isDigit || d == '_').length else 0
  | [] => 0

/-- A point with digits after it. -/
def fraction : List Char → Nat
  | '.' :: rest => if digits rest = 0 then 0 else 1 + digits rest
  | _ => 0

/-- The digits of an exponent after a sign that may be missing. -/
def signedDigits : List Char → Nat
  | c :: rest =>
    if c == '+' || c == '-' then
      let n := (rest.takeWhile Char.isDigit).length
      if n = 0 then 0 else 1 + n
    else ((c :: rest).takeWhile Char.isDigit).length
  | [] => 0

def exponent : List Char → Nat
  | c :: rest =>
    if (c == 'e' || c == 'E') && signedDigits rest != 0 then 1 + signedDigits rest else 0
  | [] => 0

/-- A number with an exponent. -/
def scientific : Rule := fun _ cs =>
  let whole := digits cs
  let part := fraction (cs.drop whole)
  let power := exponent (cs.drop (whole + part))
  if whole = 0 || power = 0 then 0 else whole + part + power

/-- A number with a point. -/
def decimal : Rule := fun _ cs =>
  let whole := digits cs
  let part := fraction (cs.drop whole)
  if whole = 0 || part = 0 then 0 else whole + part

def whole : Rule := fun _ cs => digits cs

/-! ### Words -/

/-- One of some words, from where a word starts to where it ends. -/
def word (words : List String) : Rule := fun before cs =>
  let found := cs.takeWhile Text.isWordChar
  if !before.any Text.isWordChar && words.contains (String.ofList found) then found.length else 0

/-- A name starts with any character of a word but a decimal digit. -/
def name : Rule := fun _ cs =>
  match cs with
  | c :: _ =>
    if Text.isWordChar c && !Text.isDecimal c then (cs.takeWhile Text.isWordChar).length else 0
  | [] => 0

/-- A name with a parenthesis after it. -/
def calledName : Rule := fun before cs =>
  let n := name before cs
  match (cs.drop n).dropWhile Text.isBlank with
  | '(' :: _ => n
  | _ => 0

end Dragon.Highlight
