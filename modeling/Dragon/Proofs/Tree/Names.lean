import Dragon.Tree.StmtReader
import Mathlib.Data.List.Basic

/-!
# Names that trees declare, and the numbers in them

Names and numbers are the values of tokens, so a property of these is one of a tree.
-/
namespace Dragon.Tree

section Names

variable (W : String → Prop)

mutual

/-- All names that a statement declares have a property. -/
def Stmt.Named : Stmt → Prop
  | .declare _ name _ _ _ => W name
  | .function definition => definition.Named
  | .matter name fields _ => W name ∧ ∀ f ∈ fields, W f.name
  | .guild name fields forge methods _ =>
    W name ∧ (∀ f ∈ fields, W f.name) ∧ (∀ ps body span, forge = some (.mk ps body span) →
      ∀ p ∈ ps, W p.name) ∧ functionsNamed methods
  | .branch _ body alternate _ => blockNamed body ∧ alternate.Named
  | .while_ _ body _ | .repeat_ _ body _ => blockNamed body
  | .range iterator _ _ _ body _ | .forEach iterator _ body _ => W iterator ∧ blockNamed body
  | .print .. | .assign .. | .increment .. | .decrement .. | .return_ .. | .break_ _ | .call .. =>
    True

def FunctionDef.Named : FunctionDef → Prop
  | .mk name params _ body _ => W name ∧ (∀ p ∈ params, W p.name) ∧ blockNamed body

def blockNamed : List Stmt → Prop
  | [] => True
  | s :: rest => s.Named ∧ blockNamed rest

def functionsNamed : List FunctionDef → Prop
  | [] => True
  | f :: rest => f.Named ∧ functionsNamed rest

def Alternate.Named : Alternate → Prop
  | .none => True
  | .block body => blockNamed body
  | .chain _ body alternate _ => blockNamed body ∧ alternate.Named

end

end Names

section Numerals

variable (N : Kind → String → Prop)

mutual

/-- All numbers in an expression have a property of their kind and text. -/
def Expr.Numerals : Expr → Prop
  | .integer text _ => N .integer text
  | .float text _ => N .float text
  | .boolean .. | .string .. | .identifier .. | .mine _ | .naught .. => True
  | .interpolation parts _ | .list parts _ => exprsNumerals parts
  | .unary _ operand _ => operand.Numerals
  | .binary left _ right _ => left.Numerals ∧ right.Numerals
  | .ternary test consequent alternate _ =>
    test.Numerals ∧ consequent.Numerals ∧ alternate.Numerals
  | .coalesce first second _ | .index first second _ => first.Numerals ∧ second.Numerals
  | .call callee args _ => callee.Numerals ∧ argumentsNumerals args
  | .member object _ _ _ => object.Numerals

def exprsNumerals : List Expr → Prop
  | [] => True
  | e :: rest => e.Numerals ∧ exprsNumerals rest

def argumentsNumerals : List Argument → Prop
  | [] => True
  | .mk _ value _ :: rest => value.Numerals ∧ argumentsNumerals rest

end

/-- The number of an argument. -/
def Argument.Numerals : Argument → Prop
  | .mk _ value _ => value.Numerals N

mutual

/-- All numbers in a statement have a property of their kind and text. -/
def Stmt.Numerals : Stmt → Prop
  | .declare _ _ _ value _ => value.Numerals N
  | .function definition => definition.Numerals
  | .matter .. | .break_ _ => True
  | .guild _ _ forge methods _ => forgeNumerals forge ∧ functionsNumerals methods
  | .print value _ | .increment value _ | .decrement value _ => value.Numerals N
  | .assign target value _ => target.Numerals N ∧ value.Numerals N
  | .return_ value _ => ∀ e ∈ value, e.Numerals N
  | .branch test body alternate _ =>
    test.Numerals N ∧ blockNumerals body ∧ alternate.Numerals
  | .while_ test body _ | .repeat_ test body _ | .forEach _ test body _ =>
    test.Numerals N ∧ blockNumerals body
  | .range _ low _ high body _ => low.Numerals N ∧ high.Numerals N ∧ blockNumerals body
  | .call callee args _ _ => callee.Numerals N ∧ argumentsNumerals N args

def blockNumerals : List Stmt → Prop
  | [] => True
  | s :: rest => s.Numerals ∧ blockNumerals rest

def FunctionDef.Numerals : FunctionDef → Prop
  | .mk _ _ _ body _ => blockNumerals body

def functionsNumerals : List FunctionDef → Prop
  | [] => True
  | f :: rest => f.Numerals ∧ functionsNumerals rest

def forgeNumerals : Option Forge → Prop
  | none => True
  | some (.mk _ body _) => blockNumerals body

def Alternate.Numerals : Alternate → Prop
  | .none => True
  | .block body => blockNumerals body
  | .chain test body alternate _ => test.Numerals N ∧ blockNumerals body ∧ alternate.Numerals

end

end Numerals

variable {N : Kind → String → Prop}

theorem exprsNumerals_iff {es : List Expr} :
    exprsNumerals N es ↔ ∀ e ∈ es, e.Numerals N := by
  induction es with
  | nil => simp [exprsNumerals]
  | cons e rest ih => simp [exprsNumerals, ih]

theorem argumentsNumerals_iff {args : List Argument} :
    argumentsNumerals N args ↔ ∀ a ∈ args, a.Numerals N := by
  induction args with
  | nil => simp [argumentsNumerals]
  | cons a rest ih =>
    obtain ⟨name, value, span⟩ := a
    simp [argumentsNumerals, Argument.Numerals, ih]

theorem blockNumerals_iff {body : List Stmt} :
    blockNumerals N body ↔ ∀ s ∈ body, s.Numerals N := by
  induction body with
  | nil => simp [blockNumerals]
  | cons s rest ih => simp [blockNumerals, ih]

mutual

/-- Nothing is asked of numbers. -/
theorem Expr.numerals_trivial (e : Expr) : e.Numerals fun _ _ => True := by
  cases e with
  | interpolation parts | list parts => exact exprsNumerals_trivial parts
  | unary _ operand | member operand => exact operand.numerals_trivial
  | binary first _ second | coalesce first second | index first second =>
    exact ⟨first.numerals_trivial, second.numerals_trivial⟩
  | ternary test consequent alternate =>
    exact ⟨test.numerals_trivial, consequent.numerals_trivial, alternate.numerals_trivial⟩
  | call callee args => exact ⟨callee.numerals_trivial, argumentsNumerals_trivial args⟩
  | _ => exact trivial

theorem exprsNumerals_trivial (es : List Expr) : exprsNumerals (fun _ _ => True) es := by
  match es with
  | [] => exact trivial
  | e :: rest => exact ⟨e.numerals_trivial, exprsNumerals_trivial rest⟩

theorem argumentsNumerals_trivial (args : List Argument) :
    argumentsNumerals (fun _ _ => True) args := by
  match args with
  | [] => exact trivial
  | .mk _ value _ :: rest => exact ⟨value.numerals_trivial, argumentsNumerals_trivial rest⟩

end

/-! ### Names and numbers together -/

variable {W : String → Prop}

theorem blockNamed_iff {body : List Stmt} : blockNamed W body ↔ ∀ s ∈ body, s.Named W := by
  induction body with
  | nil => simp [blockNamed]
  | cons s rest ih => simp [blockNamed, ih]

/-- The numbers and the declared names of a statement have a property. -/
def Stmt.Drawn (N : Kind → String → Prop) (W : String → Prop) (s : Stmt) : Prop :=
  s.Numerals N ∧ s.Named W

def FunctionDef.Drawn (N : Kind → String → Prop) (W : String → Prop) (f : FunctionDef) : Prop :=
  f.Numerals N ∧ f.Named W

def blockDrawn (N : Kind → String → Prop) (W : String → Prop) (body : List Stmt) : Prop :=
  blockNumerals N body ∧ blockNamed W body

theorem blockDrawn_iff {body : List Stmt} : blockDrawn N W body ↔ ∀ s ∈ body, s.Drawn N W := by
  rw [blockDrawn, blockNumerals_iff, blockNamed_iff, ← forall₂_and]
  rfl

/-- The numbers in a forge and the names of its parameters. -/
def forgeDrawn (N : Kind → String → Prop) (W : String → Prop) (forge : Option Forge) : Prop :=
  forgeNumerals N forge ∧ ∀ ps body span, forge = some (.mk ps body span) → ∀ p ∈ ps, W p.name

def GuildBody.Drawn (N : Kind → String → Prop) (W : String → Prop) (b : GuildBody) : Prop :=
  forgeDrawn N W b.forge ∧ functionsNumerals N b.methods ∧ (∀ f ∈ b.fields, W f.name) ∧
    functionsNamed W b.methods

end Dragon.Tree
