import Dragon.Span

/-!
# Tokens

Keywords, operators and punctuation, literals, the parts of interpolated strings, identifiers and
the end of the input.
-/
namespace Dragon

/-- The reserved words. The two truth values are literals and not listed here. -/
inductive Keyword where
  | thine | fact | don | matter | guild | forge
  | proclaim | return_ | perchance | else_ | whilst | repeateth | fortill | in_ | breaketh
  | mine | ne | some | naught
  deriving DecidableEq, Repr

namespace Keyword

def all : List Keyword :=
  [thine, fact, don, matter, guild, forge, proclaim, return_, perchance, else_, whilst,
   repeateth, fortill, in_, breaketh, mine, ne, some, naught]

def text : Keyword → String
  | thine => "thine" | fact => "fact" | don => "don" | matter => "matter" | guild => "guild"
  | forge => "forge" | proclaim => "proclaim" | return_ => "return" | perchance => "perchance"
  | else_ => "else" | whilst => "whilst" | repeateth => "repeateth" | fortill => "fortill"
  | in_ => "in" | breaketh => "breaketh" | mine => "mine" | ne => "ne" | some => "some"
  | naught => "naught"

def ofText? (word : String) : Option Keyword := all.find? (·.text == word)

end Keyword

/-- Operators and punctuation. -/
inductive Operator where
  | ellipsis | dotDotLess | power | plusPlus | minusMinus | equal | notEqual | lessEqual
  | greaterEqual | and | or | coalesce | questionDot | arrow | plus | minus | star | slash
  | less | greater | question | dot | assign | lparen | rparen | lbracket | rbracket | lbrace
  | rbrace | comma | colon | semicolon
  deriving DecidableEq, Repr

namespace Operator

/-- All operators, a longer one before those it starts with. -/
def all : List Operator :=
  [ellipsis, dotDotLess, power, plusPlus, minusMinus, equal, notEqual, lessEqual, greaterEqual,
   and, or, coalesce, questionDot, arrow, plus, minus, star, slash, less, greater, question, dot,
   assign, lparen, rparen, lbracket, rbracket, lbrace, rbrace, comma, colon, semicolon]

def text : Operator → String
  | ellipsis => "..." | dotDotLess => "..<" | power => "**" | plusPlus => "++"
  | minusMinus => "--" | equal => "==" | notEqual => "!=" | lessEqual => "<="
  | greaterEqual => ">=" | and => "&&" | or => "||" | coalesce => "??" | questionDot => "?."
  | arrow => "->" | plus => "+" | minus => "-" | star => "*" | slash => "/" | less => "<"
  | greater => ">" | question => "?" | dot => "." | assign => "=" | lparen => "("
  | rparen => ")" | lbracket => "[" | rbracket => "]" | lbrace => "\x7b" | rbrace => "\x7d"
  | comma => "," | colon => ":" | semicolon => ";"

/-- The longest operator that a text starts with. -/
def atStart? (cs : List Char) : Option Operator :=
  all.find? fun o => o.text.toList.isPrefixOf cs

end Operator

/-- The names of the built-in types. They are identifiers to the scanner. -/
def typeNames : List String := ["int", "float", "string", "bool", "zilch", "any"]

inductive Kind where
  | keyword (k : Keyword)
  | operator (o : Operator)
  | integer | float | string | boolean
  | stringStart | interpStart | interpEnd | stringEnd
  | identifier
  | eof
  deriving DecidableEq, Repr

/-- What a message calls a kind of token. -/
def Kind.description : Kind → String
  | keyword k => k.text
  | operator o => o.text
  | integer => "integer_lit"
  | float => "float_lit"
  | string => "string_lit"
  | boolean => "boolean_lit"
  | stringStart => "string_start"
  | interpStart => "interp_start"
  | interpEnd => "interp_end"
  | stringEnd => "string_end"
  | identifier => "identifier"
  | eof => "end of input"

structure Token where
  kind : Kind
  value : String
  span : Span
  deriving DecidableEq, Repr

/-- What a message says was found at a token. -/
def Token.found (t : Token) : String :=
  if t.kind = .eof then "end of input" else t.value

/-- The tokens of a text and the mark of its end. -/
structure TokenStream where
  tokens : List Token
  eof : Token
  deriving DecidableEq, Repr

end Dragon
