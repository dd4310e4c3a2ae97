import Dragon.Highlight.Rule
import Dragon.Text.Lines

/-!
# The highlighter

The highlighter keeps a stack of modes, for strings and the expressions inside them. At every place
the first rule of the mode on top that applies gives a piece its style and may change the stack;
where none applies a single character is an error.
-/
namespace Dragon.Highlight

inductive Mode where
  | code
  | string
  /-- An expression inside a string. -/
  | hole
  /-- Braces inside such an expression. -/
  | brace
  deriving DecidableEq, Repr

inductive Action where
  | stay
  | push (mode : Mode)
  | pop
  deriving DecidableEq, Repr

/-- What to do with the stack of modes, the top first. -/
def Action.apply : Action → List Mode → List Mode
  | stay, stack => stack
  | push mode, stack => mode :: stack
  | pop, stack => stack.tail

structure Entry where
  rule : Rule
  style : Style
  action : Action := .stay

def declarationWords : List String := ["thine", "fact", "don", "matter", "guild", "forge"]

def statementWords : List String :=
  ["proclaim", "return", "perchance", "else", "whilst", "repeateth", "fortill", "in", "breaketh",
   "ne", "some"]

def operators : List String :=
  ["...", "..<", "**", "++", "--", "==", "!=", "<=", ">=", "&&", "||", "??", "?.", "->",
   "+", "-", "*", "/", "<", ">", "?", "=", "."]

def codeRules : List Entry :=
  [⟨run Text.isBlank, .text, .stay⟩,
   ⟨comment, .comment, .stay⟩,
   ⟨oneOf ["\""], .string, .push .string⟩,
   ⟨scientific, .float, .stay⟩,
   ⟨decimal, .float, .stay⟩,
   ⟨whole, .integer, .stay⟩,
   ⟨word declarationWords, .declaration, .stay⟩,
   ⟨word statementWords, .keyword, .stay⟩,
   ⟨word ["mine"], .pseudo, .stay⟩,
   ⟨word ["shall", "shant", "naught"], .constant, .stay⟩,
   ⟨word ["int", "float", "string", "bool", "zilch", "any"], .type, .stay⟩,
   ⟨oneOf operators, .operator, .stay⟩,
   ⟨calledName, .function, .stay⟩,
   ⟨name, .name, .stay⟩,
   ⟨oneOf ["(", ")", ",", ";", "[", "]", "\x7b", "\x7d", ":"], .punctuation, .stay⟩]

def stringRules : List Entry :=
  [⟨oneOf ["\\n", "\\t", "\\\\", "\\\"", "\\$", "\\0"], .escape, .stay⟩,
   ⟨oneOf ["$\x7b"], .interpolation, .push .hole⟩,
   ⟨run fun c => c != '"' && c != '\\' && c != '$', .string, .stay⟩,
   ⟨oneOf ["$"], .string, .stay⟩,
   ⟨oneOf ["\""], .string, .pop⟩]

/-- The rules of a mode, in the order in which they are tried. -/
def rules : Mode → List Entry
  | .code => codeRules
  | .string => stringRules
  | .hole =>
    ⟨oneOf ["\x7d"], .interpolation, .pop⟩ :: ⟨oneOf ["\x7b"], .punctuation, .push .brace⟩ ::
      codeRules
  | .brace =>
    ⟨oneOf ["\x7d"], .punctuation, .pop⟩ :: ⟨oneOf ["\x7b"], .punctuation, .push .brace⟩ ::
      codeRules

/-- The next piece: its style, its length and the stack behind it. -/
structure Step where
  style : Style
  length : Nat
  stack : List Mode

/-- The first rule that applies, or an error of one character. -/
def step (before : Option Char) (stack : List Mode) (cs : List Char) : Step :=
  match (rules (stack.headD .code)).find? fun e => e.rule before cs != 0 with
  | some e => ⟨e.style, e.rule before cs, e.action.apply stack⟩
  | none => ⟨.error, 1, stack⟩

/-- A piece of the text with its style and the place it starts at. -/
structure Piece where
  start : Nat
  style : Style
  text : String
  deriving DecidableEq, Repr

/-- The pieces from a place on. -/
def pieces (start : Nat) (before : Option Char) (stack : List Mode) : List Char → List Piece
  | [] => []
  | c :: rest =>
    let s := step before stack (c :: rest)
    let more := s.length - 1
    let taken := c :: rest.take more
    ⟨start, s.style, String.ofList taken⟩ ::
      pieces (start + taken.length) taken.getLast? s.stack (rest.drop more)
termination_by cs => cs.length
decreasing_by
  simp only [List.length_drop, List.length_cons]
  omega

/-- The pieces of a text. -/
def highlight (source : String) : List Piece := pieces 0 none [.code] source.toList

/-- A text as files hold it: without a byte order mark, with plain line ends, and with exactly one
of them around the text, at its end. -/
def normalize (source : String) : String :=
  let marked := match source.toList with
    | '\ufeff' :: rest => rest
    | cs => cs
  let trimmed := (Text.unifyNewlines marked).dropWhile (· == '\n')
  String.ofList ((trimmed.reverse.dropWhile (· == '\n')).reverse ++ ['\n'])

end Dragon.Highlight
