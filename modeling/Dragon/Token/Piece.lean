import Dragon.Text.Digit
import Dragon.Token.Fault

/-!
# Cutting a text into pieces

A piece is the text of a token or a gap between tokens, and the pieces put together give the text
back; positions play no part here. Inside a string the text runs to the closing quote or to an
interpolation, whose tokens are cut as usual until its own closing brace. The depths count, for each
open interpolation, the braces opened inside it.
-/
namespace Dragon

/-- A gap when `kind` is `none`. The opening quote of an interpolated string is recorded when its
first stretch of text, kept in `ahead`, has been read. -/
structure Piece where
  kind : Option Kind
  text : List Char
  value : String
  ahead : List Char
  deriving DecidableEq, Repr

namespace Piece

def gap (text : List Char) : Piece := ⟨none, text, "", []⟩

def token (kind : Kind) (text : List Char) (value : String) : Piece := ⟨kind, text, value, []⟩

/-- A token whose value is its text. -/
def verbatim (kind : Kind) (text : List Char) : Piece := token kind text (String.ofList text)

end Piece

/-! ### Gaps -/

def isGapChar (c : Char) : Bool := c == ' ' || c == '\t' || c == '\r' || c == '\n'

/-! ### Numbers -/

def isNumeral (c : Char) : Bool := Text.isDigit c || c == '_'

/-- The fraction that a text starts with: a point, a digit and what follows of the number. -/
def fractionPart : List Char → List Char
  | '.' :: rest => if rest.head?.any Text.isDigit then '.' :: rest.takeWhile isNumeral else []
  | _ => []

def signPart : List Char → List Char
  | '+' :: _ => ['+']
  | '-' :: _ => ['-']
  | _ => []

/-- The exponent that a text starts with. -/
def exponentPart : List Char → List Char
  | e :: rest =>
    let sign := signPart rest
    let digits := rest.drop sign.length
    if (e == 'e' || e == 'E') && digits.head?.any Text.isDigit then
      e :: sign ++ digits.takeWhile isNumeral
    else []
  | [] => []

/-- The part of a number after its first digit: digits, a fraction and an exponent. -/
structure NumberTail where
  whole : List Char
  fraction : List Char
  exponent : List Char
  deriving DecidableEq, Repr

namespace NumberTail

def atStart (cs : List Char) : NumberTail :=
  let whole := cs.takeWhile isNumeral
  let fraction := fractionPart (cs.drop whole.length)
  ⟨whole, fraction, exponentPart (cs.drop (whole.length + fraction.length))⟩

def text (t : NumberTail) : List Char := t.whole ++ t.fraction ++ t.exponent

def kind (t : NumberTail) : Kind :=
  if t.fraction.isEmpty && t.exponent.isEmpty then .integer else .float

end NumberTail

/-! ### Words -/

/-- Reserved words and truth values have kinds of their own. -/
def wordKind (word : String) : Kind :=
  match Keyword.ofText? word with
  | some k => .keyword k
  | none => if word == "shall" || word == "shant" then .boolean else .identifier

/-! ### Text of strings -/

/-- The character that an escape stands for. -/
def escaped? : Char → Option Char
  | 'n' => some '\n'
  | 't' => some '\t'
  | '\\' => some '\\'
  | '"' => some '"'
  | '$' => some '$'
  | '0' => some '\x00'
  | _ => none

/-- How a stretch of string text ends, with the text after its end. -/
inductive StretchEnd where
  | quote (rest : List Char)
  | interpolation (rest : List Char)
  | unterminated
  | badEscape (code : Char)
  deriving DecidableEq, Repr

/-- A stretch of string text: as written, its value, and its end. -/
structure Stretch where
  text : List Char
  value : List Char
  stop : StretchEnd
  deriving DecidableEq, Repr

def Stretch.cons (text : List Char) (value : Char) (s : Stretch) : Stretch :=
  ⟨text ++ s.text, value :: s.value, s.stop⟩

/-- String text up to its quote or to an interpolation. It does not go past the end of its line. -/
def stretch : List Char → Stretch
  | [] => ⟨[], [], .unterminated⟩
  | '\n' :: _ => ⟨[], [], .unterminated⟩
  | '"' :: rest => ⟨[], [], .quote rest⟩
  | '$' :: '{' :: rest => ⟨[], [], .interpolation rest⟩
  | '\\' :: [] => ⟨[], [], .badEscape '\x00'⟩
  | '\\' :: code :: rest =>
    match escaped? code with
    | some value => (stretch rest).cons ['\\', code] value
    | none => ⟨[], [], .badEscape code⟩
  | c :: rest => (stretch rest).cons [c] c

/-- The token of a stretch, if it is not empty. -/
def Stretch.chunk (s : Stretch) : List Piece :=
  if s.value.isEmpty then [] else [Piece.token .string s.text (String.ofList s.value)]

/-! ### The cut -/

/-- The pieces at the start of a text, the depths after them and the text left; or a fault, with
the text between here and its place. -/
inductive Step where
  | take (pieces : List Piece) (depths : List Nat) (rest : List Char)
  | fault (cause : SyntaxCause) (lead : List Char)
  deriving DecidableEq, Repr

def interpOpen : List Char := ['$', '{']

/-- A string from its opening quote. -/
def stepString (depths : List Nat) (rest : List Char) : Step :=
  let s := stretch rest
  match s.stop with
  | .quote rest =>
    .take [Piece.token .string ('"' :: s.text ++ ['"']) (String.ofList s.value)] depths rest
  | .interpolation rest =>
    .take (⟨Kind.stringStart, ['"'], "\"", s.text⟩ :: s.chunk ++
      [Piece.verbatim .interpStart interpOpen]) (0 :: depths) rest
  | .unterminated => .fault .unterminatedString []
  | .badEscape code => .fault (.unknownEscape code) ('"' :: s.text)

/-- The brace that closes an interpolation, and the string text after it. -/
def stepClose (depths : List Nat) (rest : List Char) : Step :=
  let s := stretch rest
  let close := Piece.verbatim .interpEnd ['}']
  match s.stop with
  | .quote rest =>
    .take (close :: s.chunk ++ [Piece.verbatim .stringEnd ['"']]) depths.tail rest
  | .interpolation rest =>
    .take (close :: s.chunk ++ [Piece.verbatim .interpStart interpOpen]) (0 :: depths.tail) rest
  | .unterminated => .fault .unterminatedString []
  | .badEscape code => .fault (.unknownEscape code) ('}' :: s.text)

/-- The depths after an operator: braces count inside an interpolation. -/
def depthsAfter : Operator → List Nat → List Nat
  | .lbrace, d :: ds => (d + 1) :: ds
  | .rbrace, d :: ds => (d - 1) :: ds
  | _, ds => ds

/-- A number from its first digit. Underscores may stand anywhere after it but at the end. -/
def stepNumber (depths : List Nat) (c : Char) (rest : List Char) : Step :=
  let tail := NumberTail.atStart rest
  let text := c :: tail.text
  if text.getLast? == some '_' then .fault (.malformedNumber (String.ofList text)) []
  else
    .take [Piece.token tail.kind text (String.ofList (text.filter (· != '_')))] depths
      (rest.drop tail.text.length)

def stepWord (depths : List Nat) (c : Char) (rest : List Char) : Step :=
  let text := c :: rest.takeWhile Text.isWordChar
  .take [Piece.verbatim (wordKind (String.ofList text)) text] depths
    (rest.dropWhile Text.isWordChar)

def stepOperator (depths : List Nat) (c : Char) (rest : List Char) : Step :=
  match Operator.atStart? (c :: rest) with
  | some o =>
    let text := o.text.toList
    .take [Piece.verbatim (.operator o) text] (depthsAfter o depths)
      ((c :: rest).drop text.length)
  | none => .fault (.unexpectedCharacter c) []

/-- One gap, one token, or one string up to its first interpolation. -/
def step (depths : List Nat) (c : Char) (rest : List Char) : Step :=
  if isGapChar c then
    .take [Piece.gap (c :: rest.takeWhile isGapChar)] depths (rest.dropWhile isGapChar)
  else if c == '/' && rest.head? == some '/' then
    .take [Piece.gap (c :: rest.takeWhile (· != '\n'))] depths (rest.dropWhile (· != '\n'))
  else if c == '"' then stepString depths rest
  else if c == '}' && depths.head? == some 0 then stepClose depths rest
  else if Text.isDigit c then stepNumber depths c rest
  else if Text.isLetter c || c == '_' then stepWord depths c rest
  else stepOperator depths c rest

theorem stretch_rest_length_le (cs : List Char) :
    (∀ rest, (stretch cs).stop = .quote rest → rest.length ≤ cs.length) ∧
      ∀ rest, (stretch cs).stop = .interpolation rest → rest.length ≤ cs.length := by
  fun_induction stretch cs <;> grind [Stretch.cons]

theorem Operator.text_ne_nil (o : Operator) : o.text.toList ≠ [] := by
  cases o <;> decide

/-- Every step leaves less text than it was given. -/
theorem step_rest_length_le {depths : List Nat} {c : Char} {rest : List Char}
    {pieces : List Piece} {depths' : List Nat} {rest' : List Char}
    (h : step depths c rest = .take pieces depths' rest') : rest'.length ≤ rest.length := by
  have string := stretch_rest_length_le rest
  have drop (p : Char → Bool) := (List.dropWhile_sublist p (l := rest)).length_le
  unfold step at h
  split at h
  · grind
  split at h
  · grind
  split at h
  · grind [stepString]
  split at h
  · grind [stepClose]
  split at h
  · grind [stepNumber]
  split at h
  · grind [stepWord]
  unfold stepOperator at h
  split at h
  · rename_i o _
    have := List.length_pos_iff.mpr o.text_ne_nil
    grind
  · contradiction

/-- The pieces of a text, and the fault that stopped the cutting, if any, with the text between
the last piece and its place. -/
structure Cut where
  pieces : List Piece
  fault : Option (SyntaxCause × List Char)
  deriving DecidableEq, Repr

/-- Cuts a text that stands inside the interpolations given by their depths. -/
def cut (depths : List Nat) (cs : List Char) : Cut :=
  match cs with
  | [] => ⟨[], if depths.isEmpty then none else some (.unterminatedInterpolation, [])⟩
  | c :: rest =>
    match _h : step depths c rest with
    | .take pieces depths' rest' =>
      let tail := cut depths' rest'
      ⟨pieces ++ tail.pieces, tail.fault⟩
    | .fault cause lead => ⟨[], some (cause, lead)⟩
termination_by cs.length
decreasing_by exact Nat.lt_succ_of_le (step_rest_length_le _h)

end Dragon
