import Dragon.Proofs.Check.Descent
import Dragon.Proofs.Script.Naming

/-!
# Statements of scripts

The statements of a script at every depth, and what is written for those of a program. Names that
are given stay as they are, so that a variable has the same name where it is declared and wherever
it is used, whichever comes first.
-/
namespace Dragon.Script

mutual

/-- The statements in a statement. An `if` that is the alternate of another is one of them. -/
def Stmt.nested : Stmt → List Stmt
  | .function _ _ body | .while_ _ body | .repeat_ _ _ _ body | .range _ _ _ _ body
  | .forEach _ _ body => blockInside body
  | .type _ _ _ methods => methodsInside methods
  | .branch _ body alternate => blockInside body ++ alternate.inside
  | .declare .. | .log _ | .increment _ | .decrement _ | .assign .. | .return_ _ | .break_
  | .expr _ => []

/-- The statements of a script, at every depth. -/
def blockInside : List Stmt → List Stmt
  | [] => []
  | s :: rest => s :: (s.nested ++ blockInside rest)

def methodsInside : List Method → List Stmt
  | [] => []
  | .mk _ _ body :: rest => blockInside body ++ methodsInside rest

def Alternate.inside : Alternate → List Stmt
  | .none => []
  | .block body => blockInside body
  | .chain test body alternate =>
    .branch test body alternate :: (blockInside body ++ alternate.inside)

end

/-- The expressions that stand directly in a statement. -/
def Stmt.direct : Stmt → List Expr
  | .type _ _ settings _ => settings.map (·.value)
  | .return_ value => value.toList
  | .declare _ _ e | .log e | .increment e | .decrement e | .expr e | .branch e _ _ | .while_ e _
  | .repeat_ _ _ e _ | .forEach _ e _ => [e]
  | .assign e e' | .range _ e _ e' _ => [e, e']
  | .function .. | .break_ => []

def Method.name : Method → String
  | mk name _ _ => name

/-- What a chain of elements and members begins with. -/
def Expr.root : Expr → Expr
  | .group e | .subscript e _ | .member e _ _ => e.root
  | e => e

end Dragon.Script

namespace Dragon

/-- What a chain of elements and members begins with. -/
def Typed.Expr.root : Typed.Expr → Typed.Expr
  | .subscript e _ _ | .member e _ _ _ => e.root
  | e => e

namespace Script

/-! ### Expressions -/

/-- A chain that begins with the object itself, or with a variable of the program, begins with
`this` or the name of the variable in the script. -/
def Rooted (final : Names) (e : Typed.Expr) (w : Expr) : Prop :=
  match e.root with
  | .self _ => w.root = .this
  | .var v => v.intrinsic = false →
    ∃ n, final.given.lookup (.symbol v.id) = some n ∧ w.root = .name n
  | _ => True

theorem Rooted.later {names final : Names} {e : Typed.Expr} {w : Expr} (h : Rooted names e w)
    (hfinal : names.KeptIn final) : Rooted final e w := by
  unfold Rooted at h ⊢
  split at h
  · exact h
  · intro hown
    obtain ⟨n, hn, hw⟩ := h hown
    exact ⟨n, hfinal _ _ hn, hw⟩
  · trivial

theorem root_grouped (source : Typed.Expr) (w : Expr) : (grouped source w).root = w.root := by
  unfold grouped
  split <;> rfl

/-- What a chain begins with, is what its shorter chain begins with. -/
theorem Rooted.chain {final : Names} {e e' : Typed.Expr} {w w' : Expr} (h : Rooted final e w)
    (he : e'.root = e.root) (hw : w'.root = w.root) : Rooted final e' w' := by
  unfold Rooted
  rw [he, hw]
  exact h

/-! ### Statements -/

/-- A constructor by its parameters and the fields that it sets. -/
structure Constructor where
  params : List Name
  settings : List Setting

/-- A field of a guild is set to what is written for its value. -/
def SetsField (final : Names) (f : Typed.FieldInit) (s : Setting) : Prop :=
  s.field = f.field.name ∧
    ∃ value, f.value = some value ∧ ofExpr value final = .ok (s.value, final)

/-- A constructor sets the fields in their order: that of a matter to its parameters, and that of a
guild to the values of the fields. -/
def Sets (final : Names) (o : Typed.ObjectDecl) (k : Constructor) : Prop :=
  match o.kind with
  | .matter => k.settings.map (·.field) = o.fields.map (·.field.name) ∧
    k.settings.map (·.value) = k.params.map .name
  | .guild => List.Forall₂ (SetsField final) o.fields k.settings

/-- A statement of a program and what is written for it. -/
inductive Transcribed (final : Names) : Typed.Stmt → Stmt → Prop
  | declare {mutable v init name w} (hname : final.given.lookup (.symbol v.id) = some name) :
    Transcribed final (.declare mutable v init) (.declare mutable name w)
  | function {f body name params ws} :
    Transcribed final (.function f body) (.function name params ws)
  | object {kind ref fields parameters methods name params settings ws}
      (hnames : ws.map Method.name = methods.map (·.func.name))
      (hsets : Sets final ⟨kind, ref, fields⟩ ⟨params, settings⟩) :
    Transcribed final (.object kind ref fields parameters methods) (.type name params settings ws)
  | print {e w} : Transcribed final (.print e) (.log w)
  | increment {target w} (h : Rooted final target w) :
    Transcribed final (.increment target) (.increment w)
  | decrement {target w} (h : Rooted final target w) :
    Transcribed final (.decrement target) (.decrement w)
  | assign {target source w w'} (h : Rooted final target w) :
    Transcribed final (.assign target source) (.assign w w')
  | return_ {e w} : Transcribed final (.return_ e) (.return_ (some w))
  | shortReturn : Transcribed final .shortReturn (.return_ none)
  | branch {test body alternate w ws w'} :
    Transcribed final (.branch test body alternate) (.branch w ws w')
  | while_ {test body w ws} : Transcribed final (.while_ test body) (.while_ w ws)
  | repeat_ {count body index limit w ws} :
    Transcribed final (.repeat_ count body) (.repeat_ index limit w ws)
  | range {iterator low kind high body name w w' ws} :
    Transcribed final (.range iterator low kind high body) (.range name w kind w' ws)
  | foreignRange {iterator low symbol high body name w w' ws} :
    Transcribed final (.foreignRange iterator low symbol high body) (.range name w .halfOpen w' ws)
  | forEach {iterator collection body name w ws} :
    Transcribed final (.forEach iterator collection body) (.forEach name w ws)
  | break_ : Transcribed final .break_ .break_
  | call {e w} : Transcribed final (.call e) (.expr w)

end Script

end Dragon
