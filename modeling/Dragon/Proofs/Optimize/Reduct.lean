import Dragon.Typed.Optimize
import Mathlib.Tactic.SplitIfs

/-!
# What one step of simplification can come to

Whatever the operation, the result is a literal, an operand or what an operand is made of, or the
operation itself; and the latter only where no rule applies. A statement stays, is removed or gives
way to one of its branches. All that optimization keeps follows from this, without another look at
the rules.
-/
namespace Dragon.Typed

namespace Expr

def isNegation : Expr → Bool
  | unary .neg _ _ => true
  | _ => false

/-- An optional of which it is known whether there is a value. -/
def isDecided : Expr → Bool
  | emptyOptional _ | unary .some _ _ => true
  | _ => false

/-- No rule for a unary operation applies to its operand. -/
def UnarySettled (op : UnaryOp) (e : Expr) : Prop :=
  match op with
  | .neg => e.number?.bind Value.negate? = none ∧ e.isNegation = false
  | .not => e.boolean? = none
  | .some => True

/-- No rule for a binary operation applies to its operands. -/
def BinarySettled (op : BinaryOp) (l r : Expr) (type : Ty) : Prop :=
  match op with
  | .and => l.truth? = none ∧ r.truth? ≠ some true
  | .or => l.truth? = none ∧ r.truth? ≠ some false
  | op => fold? op l r type = none ∧ (type.isNumeric = true → identity? op l r type = none)

/-- The values that a step can come to: truth values, one, and what is computed. -/
inductive Computed (operands : List Expr) : Value → Prop
  | truth (b : Bool) : Computed operands (.bool b)
  | one (isWhole : Bool) : Computed operands (if isWhole then .int 1 else .float 1.0)
  | negative {u v : Value} {t : Ty} (h : literal u t ∈ operands) (hv : u.negate? = some v) :
    Computed operands v
  | result {op : BinaryOp} {isWhole : Bool} {a b v : Value}
      (h : Value.arithmetic? op isWhole a b = some v) : Computed operands v

/-- What a step can make of an operation with some operands, which stays as it is only if it is
settled. -/
inductive Reduct (operands : List Expr) (operation : Expr) (settled : Prop) : Expr → Prop
  | literal {v : Value} (h : Computed operands v) (type : Ty) :
    Reduct operands operation settled (literal v type)
  | operand {e : Expr} (h : e ∈ operands) : Reduct operands operation settled e
  | inner {op : UnaryOp} {e : Expr} {type : Ty} (h : unary op e type ∈ operands) :
    Reduct operands operation settled e
  | negated {e : Expr} (type : Ty) (h : e ∈ operands) (hsettled : UnarySettled .neg e) :
    Reduct operands operation settled (unary .neg e type)
  | same (h : settled) : Reduct operands operation settled operation

variable {e l r test o f : Expr} {type : Ty}

/-! ### Unary operations -/

theorem isNegation_eq_false (h : ∀ inner t, e = unary .neg inner t → False) :
    e.isNegation = false := by
  cases e with
  | unary op inner t =>
    cases op with
    | neg => exact (h inner t rfl).elim
    | _ => rfl
  | _ => rfl

theorem number?_eq_some {v : Value} (h : e.number? = some v) :
    ∃ t, e = literal v t ∧ t.isNumeric = true := by
  unfold number? at h
  split at h
  · cases h
    exact ⟨_, rfl, rfl⟩
  · cases h
    exact ⟨_, rfl, rfl⟩
  · cases h

theorem reduct_negate {operands : List Expr} {operation : Expr} {settled : Prop}
    (he : e ∈ operands) (type : Ty) : Reduct operands operation settled (e.negate type) := by
  unfold negate
  split
  next v hv =>
    obtain ⟨u, hu, hnegative⟩ := Option.bind_eq_some_iff.1 hv
    obtain ⟨t, rfl, -⟩ := number?_eq_some hu
    exact .literal (.negative he hnegative) _
  next hnumber =>
    split
    next inner t => exact .inner he
    next hne => exact .negated type he ⟨hnumber, isNegation_eq_false hne⟩

theorem reduct_applyUnary (op : UnaryOp) (e : Expr) (type : Ty) :
    Reduct [e] (unary op e type) (UnarySettled op e) (applyUnary op e type) := by
  cases op with
  | neg => exact reduct_negate List.mem_cons_self type
  | not =>
    simp only [applyUnary, invert]
    split
    next v hv => exact .literal (.truth _) _
    next hboolean => exact .same hboolean
  | some => exact .same trivial

/-! ### Binary operations -/

theorem fold?_cases {op : BinaryOp} {folded : Logged Expr} (h : fold? op l r type = some folded)
    (operands : List Expr) : ∃ v t, folded.value = literal v t ∧ Computed operands v := by
  unfold fold? at h
  split at h
  · split at h
    · obtain ⟨b, -, rfl⟩ := Option.map_eq_some_iff.1 h
      exact ⟨_, _, rfl, .truth b⟩
    · obtain ⟨v, hv, rfl⟩ := Option.map_eq_some_iff.1 h
      exact ⟨v, type, rfl, .result hv⟩
  · split at h
    · cases h
      exact ⟨_, _, rfl, .truth _⟩
    · cases h
      exact ⟨_, _, rfl, .truth _⟩
    · cases h

theorem identity?_cases {op : BinaryOp} (h : identity? op l r type = some e) :
    e = l ∨ e = r ∨ e = r.negate type ∨ e = one type := by
  cases op with
  | add | sub | mul | div | pow =>
    simp only [identity?] at h
    split_ifs at h <;> simp_all
  | _ => cases h

/-- Folds, shortcuts and operations that are left cover all cases. -/
theorem reduct_combine {op : BinaryOp} (hop : op ≠ .and ∧ op ≠ .or) (l r : Expr) (type : Ty) :
    Reduct [l, r] (binary op l r type) (BinarySettled op l r type)
      (combine op l r type).value := by
  unfold combine
  split
  next folded hfold =>
    obtain ⟨v, t, hv, hcomputed⟩ := fold?_cases hfold [l, r]
    rw [hv]
    exact .literal hcomputed t
  next hfold =>
    split
    next e hidentity =>
      split_ifs at hidentity with hnumeric
      obtain rfl | rfl | rfl | rfl := identity?_cases hidentity
      · exact .operand (by simp)
      · exact .operand (by simp)
      · exact reduct_negate (by simp) type
      · exact .literal (.one _) _
    next hidentity =>
      refine .same ?_
      have hnone (hnumeric : type.isNumeric = true) : identity? op l r type = none := by
        simpa [hnumeric] using hidentity
      cases op with
      | and => exact absurd rfl hop.1
      | or => exact absurd rfl hop.2
      | _ => exact ⟨hfold, hnone⟩

/-- The truth value `c` decides a connective, the other one leaves it to the other operand. -/
theorem reduct_connective (c : Bool) (l r e : Expr) :
    Reduct [l, r] e (l.truth? = none ∧ r.truth? ≠ some !c)
      (if l.truth? == some !c then r
      else if r.truth? == some !c then l
      else if l.truth? == some c then l
      else e) := by
  split_ifs with hleave hright hdecide
  · exact .operand (by simp)
  · exact .operand (by simp)
  · exact .operand (by simp)
  · refine .same ⟨?_, by simpa using hright⟩
    cases htruth : l.truth? with
    | none => rfl
    | some b => cases b <;> cases c <;> simp [htruth] at hleave hdecide

theorem reduct_applyBinary (op : BinaryOp) (l r : Expr) (type : Ty) :
    Reduct [l, r] (binary op l r type) (BinarySettled op l r type)
      (applyBinary op l r type).value := by
  cases op with
  | and => exact reduct_connective false l r _
  | or => exact reduct_connective true l r _
  | _ => exact reduct_combine (by simp) l r type

/-! ### Choices -/

theorem reduct_choose (test l r : Expr) (type : Ty) :
    Reduct [test, l, r] (ternary test l r type) (test.truth? = none)
      (test.choose l r type) := by
  unfold choose
  split
  next => exact .operand (by simp)
  next => exact .operand (by simp)
  next htruth => exact .same htruth

theorem reduct_orElse (o f : Expr) (type : Ty) :
    Reduct [o, f] (coalesce o f type) (o.isDecided = false) (o.orElse f type) := by
  unfold orElse
  split
  next => exact .operand (by simp)
  next inner t => exact .inner List.mem_cons_self
  next hempty hsome =>
    refine .same ?_
    cases o with
    | emptyOptional t => exact (hempty t rfl).elim
    | unary op inner t =>
      cases op with
      | some => exact (hsome inner t rfl).elim
      | _ => rfl
    | _ => rfl

end Expr

/-! ### Bodies -/

/-- The body of a function as it is optimized. The library's functions have none. -/
def optimizeBody (f : Func) (body : List Stmt) : Logged (List Stmt) :=
  if f.intrinsic then pure body else optimizeBlock body

theorem Stmt.optimize_function (f : Func) (body : List Stmt) :
    (Stmt.function f body).optimize =
      optimizeBody f body >>= fun body => pure (.one (.function f body)) := by
  rw [Stmt.optimize, optimizeBody]
  cases f.intrinsic <;> rfl

theorem optimizeMethods_cons (f : Func) (body : List Stmt) (rest : List Method) :
    optimizeMethods (.mk f body :: rest) =
      optimizeBody f body >>= fun body => optimizeMethods rest >>= fun rest =>
        pure (.mk f body :: rest) := by
  rw [optimizeMethods, optimizeBody]
  cases f.intrinsic <;> rfl

/-! ### Statements -/

theorem optimizeFields_eq (fields : List FieldInit) :
    (optimizeFields fields).value =
      fields.map fun f => ⟨f.field, f.value.map (·.optimize.value)⟩ := by
  induction fields with
  | nil => rfl
  | cons f rest ih =>
    obtain ⟨field, value⟩ := f
    cases value <;> simp [optimizeFields, ih]

/-- A statement with its parts optimized. -/
def Stmt.optimized : Stmt → Stmt
  | .declare mutable v init => .declare mutable v init.optimize.value
  | .function f body => .function f (optimizeBody f body).value
  | .object .matter ref fields parameters methods => .object .matter ref fields parameters methods
  | .object .guild ref fields parameters methods =>
    .object .guild ref (optimizeFields fields).value parameters (optimizeMethods methods).value
  | .print e => .print e.optimize.value
  | .increment target => .increment target.optimize.value
  | .decrement target => .decrement target.optimize.value
  | .assign target source => .assign target.optimize.value source.optimize.value
  | .return_ e => .return_ e.optimize.value
  | .shortReturn => .shortReturn
  | .branch test body alternate =>
    .branch test.optimize.value (optimizeBlock body).value alternate.optimize.value
  | .while_ test body => .while_ test.optimize.value (optimizeBlock body).value
  | .repeat_ count body => .repeat_ count.optimize.value (optimizeBlock body).value
  | .range iterator low kind high body =>
    .range iterator low.optimize.value kind high.optimize.value (optimizeBlock body).value
  | .foreignRange iterator low symbol high body =>
    .foreignRange iterator low.optimize.value symbol high.optimize.value (optimizeBlock body).value
  | .forEach iterator collection body =>
    .forEach iterator collection.optimize.value (optimizeBlock body).value
  | .break_ => .break_
  | .call e => .call e.optimize.value
  | .expr e => .expr e.optimize.value
  | .bare used declared => .bare used declared
  | .misplaced _ optimized => .misplaced optimized optimized

def Alternate.optimized : Alternate → Alternate
  | .none => .none
  | .block body => .block (optimizeBlock body).value
  | .chain test body alternate =>
    .chain test.optimize.value (optimizeBlock body).value alternate.optimize.value

/-- A statement that does nothing: a loop that is never run, or a name assigned to itself. -/
def Stmt.isIdle : Stmt → Bool
  | .assign target source => target.sameName source
  | .while_ test _ => test.truth? == some false
  | .repeat_ count _ => (idle? count).isSome
  | .range _ low kind high _ => emptyRange kind low high
  | .foreignRange _ low _ high _ => emptyRange .halfOpen low high
  | .forEach _ collection _ => collection.isEmptyList
  | _ => false

/-- Which way an `if` is known to go. -/
def Stmt.known? : Stmt → Option Bool
  | .branch test _ _ => test.truth?
  | _ => none

/-- What can be left of a statement when its parts are optimized. -/
inductive Stmt.Left : Stmt → List Stmt → Prop
  | same {s : Stmt} (hidle : s.isIdle = false) (hknown : s.known? = none) : Left s [s]
  | nothing {s : Stmt} (hidle : s.isIdle = true) : Left s []
  | body {test : Expr} {body : List Stmt} {alternate : Alternate}
      (hknown : test.truth? = some true) : Left (.branch test body alternate) body
  | other {test : Expr} {body : List Stmt} {alternate : Alternate}
      (hknown : test.truth? = some false) :
    Left (.branch test body alternate) alternate.residue.statements

/-- What optimization leaves of a statement is told by its optimized parts. -/
theorem Stmt.left_optimize (s : Stmt) : Left s.optimized s.optimize.value.statements := by
  cases s with
  | function f body =>
    rw [Stmt.optimize_function]
    exact .same rfl rfl
  | assign | while_ | range | foreignRange | forEach =>
    simp only [Stmt.optimize, Logged.value_bind]
    split_ifs with hidle
    · exact .nothing hidle
    · exact .same (Bool.not_eq_true _ ▸ hidle) rfl
  | repeat_ count body =>
    simp only [Stmt.optimize, Logged.value_bind]
    split
    next times hidle => exact .nothing (Option.isSome_iff_exists.2 ⟨times, hidle⟩)
    next hidle => exact .same (Option.isSome_eq_false_iff.2 (Option.isNone_iff_eq_none.2 hidle)) rfl
  | branch test body alternate =>
    show Left _ (branched _ _ _).value.statements
    unfold branched
    split
    next htruth => exact .body htruth
    next htruth => exact .other htruth
    next htruth => exact .same rfl htruth
  | object kind => cases kind <;> exact .same rfl rfl
  | _ => exact .same rfl rfl

/-- What can be left of an alternate. -/
inductive Alternate.Left : Alternate → Alternate → Prop
  | none : Left .none .none
  | block {body : List Stmt} : Left (.block body) (.ofBlock body)
  | same {test : Expr} {body : List Stmt} {alternate : Alternate} (hknown : test.truth? = .none) :
    Left (.chain test body alternate) (.chain test body alternate)
  | body {test : Expr} {body : List Stmt} {alternate : Alternate} :
    Left (.chain test body alternate) (.ofBlock body)
  | other {test : Expr} {body : List Stmt} {alternate : Alternate} :
    Left (.chain test body alternate) alternate

theorem Alternate.left_optimize (a : Alternate) : Left a.optimized a.optimize.value := by
  match a with
  | .none => exact .none
  | .block body => exact .block
  | .chain test body alternate =>
    show Left _ (chained _ _ _).value
    unfold chained
    split
    next => exact .body
    next => exact .other
    next htruth => exact .same htruth

end Dragon.Typed
