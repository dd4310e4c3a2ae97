import Dragon.Command.Arguments
import Dragon.Diagnostic.Render
import Dragon.Settings.Basic
import Dragon.Tree.View

/-!
# What a command prints and how it ends
-/
namespace Dragon.Command

/-! ### Colours -/

def isParameter (c : Char) : Bool := c == ';' || c == '?' || c.isDigit

/-- Text without the marks that set colours. `held` are the characters of a mark that has begun,
the latest first; they are text after all if the mark is not completed. -/
def withoutColors (held : List Char) : List Char → List Char
  | [] => held.reverse
  | c :: rest =>
    if c == '\x1b' then held.reverse ++ withoutColors ['\x1b'] rest
    else match held with
      | [] => c :: withoutColors [] rest
      | [_] =>
        if c == '[' then withoutColors ('[' :: held) rest
        else held.reverse ++ c :: withoutColors [] rest
      | _ =>
        if isParameter c then withoutColors (c :: held) rest
        else if c.isAlpha then withoutColors [] rest
        else held.reverse ++ c :: withoutColors [] rest

/-- A text as a line of its own. -/
def echo (colored : Bool) (text : String) : String :=
  (if colored then text else String.ofList (withoutColors [] text.toList)) ++ "\n"

def echoAll (colored : Bool) (texts : List String) : String :=
  String.join (texts.map (echo colored))

/-! ### Outcomes -/

/-- An error that is not the program's and that no message was written for. -/
inductive Failure where
  | settings (e : SettingsError)
  | compile (e : CompileError)

structure Outcome where
  exit : Nat
  out : String
  err : String
  failure : Option Failure

/-- A file that can not be compiled at all. -/
def refused (colored : Bool) (message : String) : Outcome :=
  ⟨1, "", echo colored s!"error: {message}", none⟩

def logText (verbose : Bool) (log : List Event) : String :=
  if verbose then String.join (log.map fun e => e.line ++ "\n") else ""

/-- A source file with all that is known of it. -/
structure Source where
  /-- The file as it was given. -/
  argument : String
  text : String
  settings : Settings

/-- The name of a source in messages. -/
def Source.name (s : Source) : String := (Path.ofText s.argument).text

structure Options where
  verbose : Bool
  colored : Bool

/-- Compiles and prints what `shown` makes of the result, or the error. -/
def compileAnd (o : Options) (s : Source) (stage : Stage) (optimize pretty : Bool)
    (shown : Output → List String) : Outcome :=
  let compiled := Dragon.compile stage optimize s.name s.text
  let log := logText o.verbose compiled.log
  match compiled.value with
  | .ok output => ⟨0, echoAll o.colored (shown output), log, none⟩
  | .error e =>
    match e.diagnostic? with
    | none => ⟨1, "", log, some (.compile e)⟩
    | some d =>
      let text :=
        if pretty then d.render s.settings.color.holds fun _ => Text.lines s.text else e.message
      ⟨1, "", log ++ echo o.colored text, none⟩

/-- The lines of the syntax tree of a source. -/
def treeLines (s : Source) : List String :=
  match Tree.Program.ofSource s.name s.text with
  | .ok tree => tree.view
  | .error _ => []

def perform (o : Options) (s : Source) : Task → Outcome
  | .compile output optimize pretty =>
    compileAnd o s (output.getD s.settings.output) (optimize.getD s.settings.optimize.holds)
      (pretty || s.settings.pretty.holds) Output.lines
  | .check =>
    compileAnd o s .analyzed false s.settings.pretty.holds fun _ =>
      [s!"checked {s.argument}: no errors"]
  | .view true => compileAnd o s .analyzed false s.settings.pretty.holds Output.lines
  | .view false => compileAnd o s .parsed false s.settings.pretty.holds fun _ => treeLines s

/-- A task on the bytes of its file and of the settings file, if there is one. -/
def outcome (o : Options) (task : Task) (file : String) (bytes : ByteArray)
    (settingsFile : Option (Path × ByteArray)) : Outcome :=
  match Text.Utf8.decode bytes with
  | .error fault => refused o.colored fault.message
  | .ok text =>
    match Settings.ofFile settingsFile with
    | .ok settings => perform o ⟨file, Text.unified text, settings⟩ task
    | .error (.notATable value) => ⟨1, "", "", some (.settings (.notATable value))⟩
    | .error e => refused o.colored e.message

def versionLine : String := "dragon, version 0.1.0"

/-- Runs a command line; no outcome if it asks for nothing that can be done. -/
def run {m : Type → Type} [Monad m] (disk : Disk m) (colored : Bool) (args : List String) :
    m (Option Outcome) := do
  match Invocation.ofArgs? args with
  | none => pure none
  | some .version => pure (some ⟨0, echo colored versionLine, "", none⟩)
  | some (.run verbose task file) =>
    match ← disk.read? file with
    | none => pure none
    | some bytes =>
      let settingsFile ← Settings.find disk (Path.ofText file)
      pure (some (outcome ⟨verbose, colored⟩ task file bytes settingsFile))

end Dragon.Command
