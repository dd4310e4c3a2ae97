import Dragon.Text.Lines
import Dragon.Text.Split

/-!
# Settings files

In TOML: tables, and keys with texts, whole numbers and truth values. Every line is a table's
header, one assignment, or empty but for a comment.
-/
namespace Dragon.Toml

inductive Value where
  | string (s : String)
  | int (n : Int)
  | bool (b : Bool)
  | table (entries : List (String × Value))

abbrev Table := List (String × Value)

/-- Whether a value counts as true: everything but zero, false and what is empty. -/
def Value.holds : Value → Bool
  | string s => !s.isEmpty
  | int n => n != 0
  | bool b => b
  | table entries => !entries.isEmpty

/-! ### Texts -/

def hexValue? (c : Char) : Option Nat :=
  if '0' ≤ c && c ≤ '9' then some (c.toNat - '0'.toNat)
  else if 'a' ≤ c && c ≤ 'f' then some (c.toNat - 'a'.toNat + 10)
  else if 'A' ≤ c && c ≤ 'F' then some (c.toNat - 'A'.toNat + 10)
  else none

/-- The character with a number written in hexadecimal. -/
def escapedChar? (digits : List Char) : Option Char := do
  let n ← digits.foldlM (fun n c => (hexValue? c).map (16 * n + ·)) 0
  if n.isValidChar then some (Char.ofNat n) else none

/-- The text up to the closing double quote, and what follows. -/
def quotedText? : List Char → Option (List Char × List Char)
  | [] => none
  | '"' :: rest => some ([], rest)
  | '\\' :: 'u' :: a :: b :: c :: d :: rest => do
    let char ← escapedChar? [a, b, c, d]
    let (text, rest) ← quotedText? rest
    some (char :: text, rest)
  | '\\' :: 'U' :: a :: b :: c :: d :: e :: f :: g :: h :: rest => do
    let char ← escapedChar? [a, b, c, d, e, f, g, h]
    let (text, rest) ← quotedText? rest
    some (char :: text, rest)
  | '\\' :: code :: rest => do
    let char ← match code with
      | 'b' => some '\x08'
      | 't' => some '\t'
      | 'n' => some '\n'
      | 'f' => some '\x0c'
      | 'r' => some '\r'
      | '"' => some '"'
      | '\\' => some '\\'
      | _ => none
    let (text, rest) ← quotedText? rest
    some (char :: text, rest)
  | c :: rest => do
    let (text, rest) ← quotedText? rest
    some (c :: text, rest)

/-- The text up to the closing single quote, where nothing is escaped. -/
def literalText? (cs : List Char) : Option (List Char × List Char) :=
  match cs.dropWhile (· != '\x27') with
  | [] => none
  | _ :: rest => some (cs.takeWhile (· != '\x27'), rest)

/-! ### Keys and values -/

def isBlank (c : Char) : Bool := c == ' ' || c == '\t'

def skipBlanks (cs : List Char) : List Char := cs.dropWhile isBlank

def isBareKey (c : Char) : Bool := c.isAlphanum || c == '_' || c == '-'

def key? : List Char → Option (String × List Char)
  | '"' :: rest => (quotedText? rest).map fun (text, rest) => (String.ofList text, rest)
  | '\x27' :: rest => (literalText? rest).map fun (text, rest) => (String.ofList text, rest)
  | cs =>
    if (cs.takeWhile isBareKey).isEmpty then none
    else some (String.ofList (cs.takeWhile isBareKey), cs.dropWhile isBareKey)

/-- Keys with dots between them, at most `fuel` of them. -/
def keys? : (fuel : Nat) → List Char → Option (List String × List Char)
  | 0, _ => none
  | fuel + 1, cs => do
    let (key, rest) ← key? cs
    match skipBlanks rest with
    | '.' :: more =>
      let (keys, rest) ← keys? fuel (skipBlanks more)
      some (key :: keys, rest)
    | rest => some ([key], rest)

/-- The value of a digit in a base. -/
def digitValue? (base : Nat) (c : Char) : Option Nat := (hexValue? c).filter (· < base)

/-- A whole number in the digits of a base, with underscores between them. -/
def natural? (base : Nat) (digits : List Char) : Option Nat :=
  let plain := digits.filter (· != '_')
  if plain.isEmpty then none
  else plain.foldlM (fun n c => (digitValue? base c).map (base * n + ·)) 0

/-- A word without quotes: a truth value or a whole number. -/
def word? (word : List Char) : Option Value :=
  if word == "true".toList then some (.bool true)
  else if word == "false".toList then some (.bool false)
  else match word with
    | '0' :: 'x' :: digits => (natural? 16 digits).map fun n => .int n
    | '0' :: 'o' :: digits => (natural? 8 digits).map fun n => .int n
    | '0' :: 'b' :: digits => (natural? 2 digits).map fun n => .int n
    | '-' :: digits => (natural? 10 digits).map fun n => .int (-(n : Int))
    | '+' :: digits => (natural? 10 digits).map fun n => .int n
    | digits => (natural? 10 digits).map fun n => .int n

def isWordChar (c : Char) : Bool := isBareKey c || c == '+'

def value? : List Char → Option (Value × List Char)
  | '"' :: rest => (quotedText? rest).map fun (text, rest) => (.string (String.ofList text), rest)
  | '\x27' :: rest =>
    (literalText? rest).map fun (text, rest) => (.string (String.ofList text), rest)
  | cs => (word? (cs.takeWhile isWordChar)).map fun v => (v, cs.dropWhile isWordChar)

/-! ### Lines -/

inductive Line where
  | empty
  | header (path : List String)
  | assign (path : List String) (value : Value)

/-- Whether nothing but a comment follows. -/
def isEnd (cs : List Char) : Bool :=
  match skipBlanks cs with
  | [] => true
  | c :: _ => c == '#'

def line? (cs : List Char) : Option Line :=
  if isEnd cs then some .empty
  else match skipBlanks cs with
    | '[' :: rest => do
      let (path, rest) ← keys? rest.length (skipBlanks rest)
      match rest with
      | ']' :: rest => if isEnd rest then some (.header path) else none
      | _ => none
    | rest => do
      let (path, rest) ← keys? rest.length rest
      match rest with
      | '=' :: rest =>
        let (value, rest) ← value? (skipBlanks rest)
        if isEnd rest then some (.assign path value) else none
      | _ => none

/-! ### Documents -/

/-- Puts a value at a path, making the tables on the way. A table that is there already stays. -/
def put : List String → Value → Table → Option Table
  | [], _, entries => some entries
  | [key], value, entries =>
    match entries.lookup key, value with
    | none, value => some (entries ++ [(key, value)])
    | some (.table _), .table _ => some entries
    | _, _ => none
  | key :: path, value, entries =>
    match entries.lookup key with
    | none => (put path value []).map fun inner => entries ++ [(key, .table inner)]
    | some (.table inner) =>
      (put path value inner).map fun inner =>
        entries.map fun e => if e.1 == key then (key, .table inner) else e
    | _ => none

/-- Lines from a place where the table at `current` is open. -/
def document? (current : List String) (table : Table) : List (List Char) → Option Table
  | [] => some table
  | cs :: rest => do
    match ← line? cs with
    | .empty => document? current table rest
    | .header path => document? path (← put path (.table []) table) rest
    | .assign path value => document? current (← put (current ++ path) value table) rest

/-- The table that a settings file writes. -/
def read? (text : String) : Option Table :=
  document? [] [] (Text.splitBy '\n' (Text.unifyNewlines text.toList))

end Dragon.Toml
