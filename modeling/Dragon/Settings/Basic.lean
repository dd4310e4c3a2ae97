import Dragon.Compile
import Dragon.Disk
import Dragon.Settings.Toml
import Dragon.Text.Utf8

/-!
# Settings of a project

They are read from the nearest `dragon.toml` in the directory of a file or above it.
-/
namespace Dragon

structure Settings where
  output : Stage
  optimize : Toml.Value
  pretty : Toml.Value
  color : Toml.Value

/-- Why settings can not be had. -/
inductive SettingsError where
  | undecodable (fault : Text.Utf8.Fault)
  | malformed (path : Path)
  | unknownOutput (path : Path)
  | notATable (value : Toml.Value)

namespace SettingsError

/-- The word for the kind of a value. -/
def kindOf : Toml.Value → String
  | .string _ => "str"
  | .int _ => "int"
  | .bool _ => "bool"
  | .table _ => "dict"

def message : SettingsError → String
  | undecodable fault => fault.message
  | malformed path => s!"{path.text}: malformed settings"
  | unknownOutput path =>
    let names := ", ".intercalate (Stage.all.map Stage.name)
    s!"{path.text}: [build] output must be one of {names}"
  | notATable value => s!"'{kindOf value}' object has no attribute 'get'"

end SettingsError

namespace Settings

/-- The settings of a project that sets nothing. -/
def standard : Settings := ⟨.script, .bool true, .bool false, .bool true⟩

def fileName : String := "dragon.toml"

/-- A section of the settings, if there is one. -/
def section? (table : Toml.Table) (name : String) : Except SettingsError (Option Toml.Table) :=
  match table.lookup name with
  | none => .ok none
  | some (.table entries) => .ok (some entries)
  | some value => .error (.notATable value)

/-- The stage that a section names. -/
def outputOf (path : Path) (entries : Toml.Table) : Except SettingsError Stage :=
  match entries.lookup "output" with
  | none => .ok standard.output
  | some (.string name) =>
    match Stage.ofName? name with
    | some stage => .ok stage
    | none => .error (.unknownOutput path)
  | some _ => .error (.unknownOutput path)

def ofTable (path : Path) (table : Toml.Table) : Except SettingsError Settings := do
  let withBuild ← match ← section? table "build" with
    | none => pure standard
    | some entries =>
      let output ← outputOf path entries
      pure { standard with output, optimize := (entries.lookup "optimize").getD standard.optimize }
  match ← section? table "diagnostics" with
  | none => pure withBuild
  | some entries =>
    pure { withBuild with
      pretty := (entries.lookup "pretty").getD standard.pretty
      color := (entries.lookup "color").getD standard.color }

def ofBytes (path : Path) (bytes : ByteArray) : Except SettingsError Settings :=
  match Text.Utf8.decode bytes with
  | .error fault => .error (.undecodable fault)
  | .ok text =>
    match Toml.read? text with
    | none => .error (.malformed path)
    | some table => ofTable path table

variable {m : Type → Type} [Monad m]

/-- The first settings file in some directories, with what it holds. -/
def findIn (disk : Disk m) : List Path → m (Option (Path × ByteArray))
  | [] => pure none
  | directory :: rest => do
    let path := directory.child fileName
    match ← disk.read? path.text with
    | some bytes => pure (some (path, bytes))
    | none => findIn disk rest

/-- The settings file for a path. Since no file lies in a file, the path of a file may stand for
its directory. -/
def find (disk : Disk m) (start : Path) : m (Option (Path × ByteArray)) :=
  findIn disk (disk.here.resolve start).ancestors

/-- The settings that a settings file makes, the standard ones without a file. -/
def ofFile : Option (Path × ByteArray) → Except SettingsError Settings
  | none => .ok standard
  | some (path, bytes) => ofBytes path bytes

end Settings

end Dragon
