import Dragon.Compile

/-!
# What a command line asks for

Options of the whole tool stand before the command and options of the command after it, among its
arguments; two hyphens end the options. An option that takes a value takes the rest of its word or
the next word, and of several values the last one counts.
-/
namespace Dragon.Command

/-! ### Options -/

inductive Switch where
  | verbose | version | output | optimize | plain | pretty | typed
  deriving DecidableEq, Repr

namespace Switch

def long : Switch → String
  | verbose => "--verbose"
  | version => "--version"
  | output => "--output"
  | optimize => "--optimize"
  | plain => "--no-optimize"
  | pretty => "--pretty"
  | typed => "--ir"

/-- The letter that an option may be given by. -/
def letter? : Switch → Option Char
  | verbose => some 'v'
  | output => some 'o'
  | _ => none

def takesValue : Switch → Bool
  | output => true
  | _ => false

end Switch

/-- An option as given, with its value if it takes one. -/
structure Choice where
  switch : Switch
  value : String
  deriving DecidableEq, Repr

/-- What a single word of a command line is. -/
inductive Word where
  | argument
  | choices (given : List Choice)
  /-- Options of which the last takes its value from the next word. -/
  | unfinished (given : List Choice) (last : Switch)
  | unknown

/-- A word of letters, each an option. The first that takes a value takes the letters after it. -/
def letters (switches : List Switch) : List Char → Word
  | [] => .choices []
  | c :: rest =>
    match switches.find? (·.letter? == some c) with
    | none => .unknown
    | some s =>
      if s.takesValue then
        if rest.isEmpty then .unfinished [] s else .choices [⟨s, String.ofList rest⟩]
      else match letters switches rest with
        | .choices given => .choices (⟨s, ""⟩ :: given)
        | .unfinished given last => .unfinished (⟨s, ""⟩ :: given) last
        | word => word

/-- A long option, with its value after an equals sign. -/
def longWord (switches : List Switch) (word : List Char) : Word :=
  let name := word.takeWhile (· != '=')
  match switches.find? (·.long.toList == name), word.dropWhile (· != '=') with
  | none, _ => .unknown
  | some s, [] => if s.takesValue then .unfinished [] s else .choices [⟨s, ""⟩]
  | some s, _ :: value =>
    if s.takesValue then .choices [⟨s, String.ofList value⟩] else .unknown

def classify (switches : List Switch) (word : String) : Word :=
  match word.toList with
  | '-' :: '-' :: rest => longWord switches ('-' :: '-' :: rest)
  | '-' :: c :: rest => letters switches (c :: rest)
  | _ => .argument

/-- Options and arguments told apart. Unless they may be mixed, the first argument ends the
options. -/
def scan (switches : List Switch) (mixed : Bool) :
    List String → Option (List Choice × List String)
  | [] => some ([], [])
  | word :: rest =>
    if word == "--" then some ([], rest)
    else match classify switches word with
      | .unknown => none
      | .argument =>
        if mixed then (scan switches mixed rest).map fun (given, args) => (given, word :: args)
        else some ([], word :: rest)
      | .choices cs => (scan switches mixed rest).map fun (given, args) => (cs ++ given, args)
      | .unfinished cs s =>
        match rest with
        | [] => none
        | value :: rest =>
          (scan switches mixed rest).map fun (given, args) => (cs ++ ⟨s, value⟩ :: given, args)

/-! ### Commands -/

inductive Task where
  /-- Prints the program at a stage. What is not given is left to the settings. -/
  | compile (output : Option Stage) (optimize : Option Bool) (pretty : Bool)
  | check
  /-- Prints the syntax tree, or the typed program. -/
  | view (typed : Bool)
  deriving DecidableEq, Repr

inductive Invocation where
  | version
  | run (verbose : Bool) (task : Task) (file : String)
  deriving DecidableEq, Repr

def has (given : List Choice) (s : Switch) : Bool := given.any (·.switch == s)

/-- The stage that the options ask for; none if there is no such stage. -/
def outputOf (given : List Choice) : Option (Option Stage) :=
  match (given.filter (·.switch == .output)).getLast? with
  | none => some none
  | some choice => (Stage.ofName? choice.value).map some

/-- Whether to optimize, by the last option that says so. -/
def optimizeOf (given : List Choice) : Option Bool :=
  ((given.filter fun c => c.switch == .optimize || c.switch == .plain).getLast?).map
    (·.switch == .optimize)

/-- The task of a command with its only argument. -/
def task? (name : String) (args : List String) : Option (Task × String) := do
  let switches ← match name with
    | "compile" => some [.output, .optimize, .plain, .pretty]
    | "check" => some []
    | "view" => some [.typed]
    | _ => none
  match ← scan switches true args with
  | (given, [file]) =>
    match name with
    | "compile" =>
      let output ← outputOf given
      some (.compile output (optimizeOf given) (has given .pretty), file)
    | "check" => some (.check, file)
    | _ => some (.view (has given .typed), file)
  | _ => none

/-- What a command line asks for, if it can be understood. -/
def Invocation.ofArgs? (args : List String) : Option Invocation := do
  let (given, rest) ← scan [.verbose, .version] false args
  if has given .version then some .version
  else match rest with
    | [] => none
    | name :: args =>
      let (task, file) ← task? name args
      some (.run (has given .verbose) task file)

end Dragon.Command
