import Dragon.Check.Stmt
import Dragon.Diagnostic.Basic
import Dragon.Editor.Display
import Dragon.Editor.Place
import Dragon.Tree.Source

/-!
# Open documents

A document is read and checked as a whole whenever it changes; what was declared before a check
failed can still be looked up.
-/
namespace Dragon.Editor

/-- The names at the top of a program, with what is known of its objects. -/
structure Globals where
  scope : Scope
  objects : Objects

structure Document where
  source : String
  tree : Option Tree.Program
  globals : Option Globals
  diagnostics : List Diagnostic

/-- A document, and the failure that has no place in it if there was one. -/
structure Analysis where
  document : Document
  failure : Option CheckFailure

/-- Reads and checks a text under the name of its document. -/
def analyze (name source : String) : Analysis :=
  match Tree.Program.ofSource name source with
  | .error fault => ⟨⟨source, none, none, [fault.diagnostic]⟩, none⟩
  | .ok tree =>
    let checked := Checked.ofTree tree
    let globals : Globals := ⟨checked.state.globals, checked.state.objects⟩
    match checked.result with
    | .ok _ => ⟨⟨source, some tree, some globals, []⟩, none⟩
    | .error (.violation fault) =>
      ⟨⟨source, some tree, some globals, [fault.diagnostic]⟩, none⟩
    | .error failure => ⟨⟨source, some tree, some globals, []⟩, some failure⟩

/-! ### Hovering -/

/-- What is shown for a word; nothing if it is not a known name. -/
def Document.describe (d : Document) (word : String) : Except Untyped (Option String) :=
  match d.globals with
  | none => .ok none
  | some globals =>
    if word.isEmpty then .ok none
    else match globals.scope.lookup? word with
      | none => .ok none
      | some symbol => do
        let text ← display globals.objects word symbol
        pure (some s!"**{(roleOf globals.objects symbol).text}** \x60{text}\x60")

/-- What is shown for the word at a place. -/
def Document.hover (d : Document) (line column : Int) : Except Untyped (Option String) :=
  d.describe (wordAt d.source line column)

/-! ### Completion -/

inductive ItemKind where
  | keyword | method | function | guild | matter | value
  deriving DecidableEq, Repr

structure Item where
  label : String
  kind : ItemKind
  detail : Option String
  deriving DecidableEq, Repr

/-- Reserved words, truth values and the names of types. -/
def vocabulary : List String := Keyword.all.map (·.text) ++ ["shall", "shant"] ++ typeNames

/-- A word put in its place among words in order. -/
def insertWord (word : String) : List String → List String
  | [] => [word]
  | first :: rest =>
    if word < first then word :: first :: rest else first :: insertWord word rest

/-- The words of the language, in order. -/
def words : List String := vocabulary.foldr insertWord []

def ItemKind.ofRole : Role → ItemKind
  | .method => .method
  | .function => .function
  | .guild => .guild
  | .matter => .matter
  | _ => .value

/-- The names that the first of some bindings gives, those in `seen` left out. -/
def symbolItems (objects : Objects) (seen : List String) :
    List Binding → Except Untyped (List Item)
  | [] => .ok []
  | b :: rest =>
    if seen.contains b.name then symbolItems objects seen rest
    else do
      let detail ← display objects b.name b.symbol
      let items ← symbolItems objects (b.name :: seen) rest
      pure (⟨b.name, .ofRole (roleOf objects b.symbol), some detail⟩ :: items)

/-- What a document offers for completion: the words of the language, and then the names in scope
from the inside out. -/
def completions (d : Option Document) : Except Untyped (List Item) := do
  let keywords := words.map fun w => ⟨w, .keyword, none⟩
  match d.bind (·.globals) with
  | none => pure keywords
  | some globals =>
    let items ← symbolItems globals.objects words (globals.scope.flatMap (·.bindings))
    pure (keywords ++ items)

/-! ### The outline of a document -/

inductive MarkKind where
  | guild | method | field | function | mutable | constant | matter
  deriving DecidableEq, Repr

/-- A declaration with its range. -/
structure Mark where
  name : String
  kind : MarkKind
  range : Range
  deriving DecidableEq, Repr

/-- A declaration at the top of a document with those inside it. -/
structure Entry where
  mark : Mark
  children : List Mark
  deriving DecidableEq, Repr

def fieldMark (f : Tree.FieldDef) : Mark := ⟨f.name, .field, .ofSpan f.span⟩

def methodMark : Tree.FunctionDef → Mark
  | .mk name _ _ _ span => ⟨name, .method, .ofSpan span⟩

/-- The entry of a statement, if it declares something. -/
def entry? : Tree.Stmt → Option Entry
  | .function (.mk name _ _ _ span) => some ⟨⟨name, .function, .ofSpan span⟩, []⟩
  | .matter name fields span => some ⟨⟨name, .matter, .ofSpan span⟩, fields.map fieldMark⟩
  | .guild name fields _ methods span =>
    some ⟨⟨name, .guild, .ofSpan span⟩, fields.map fieldMark ++ methods.map methodMark⟩
  | .declare mutable name _ _ span =>
    some ⟨⟨name, if mutable then .mutable else .constant, .ofSpan span⟩, []⟩
  | _ => none

/-- What a document declares, in order; nothing if it can not be read. -/
def Document.entries (d : Document) : List Entry :=
  ((d.tree.map (·.statements)).getD []).filterMap entry?

/-! ### The open documents -/

/-- Documents by their names. -/
abbrev Documents := List (String × Document)

namespace Documents

def get? (ds : Documents) (name : String) : Option Document := ds.lookup name

def close (ds : Documents) (name : String) : Documents := ds.filter (·.1 != name)

/-- Takes a text as what a document holds from now on. -/
def put (ds : Documents) (name source : String) : Documents × Analysis :=
  let analysis := analyze name source
  ((name, analysis.document) :: ds.close name, analysis)

end Documents

end Dragon.Editor
