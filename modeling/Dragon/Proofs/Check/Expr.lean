import Dragon.Proofs.Check.Ends
import Dragon.Proofs.Typing.Parts

/-!
# Checks of expressions

Checking an expression or a type only looks at the state: whatever it comes to, the state is the
same afterwards, and if it fails, that is for a violation or for one of the numbers in the
expression. No whole number in what it gives is larger than what a script can tell from its
neighbours.
-/
namespace Dragon

/-- If it is a whole number, it is one that scripts hold exactly. -/
def Typed.Value.IsExact (v : Value) : Prop := ∀ n, v = .int n → n.natAbs ≤ largestExact

namespace Typed.Expr

def ExactHere : Expr → Prop
  | literal v _ => v.IsExact
  | _ => True

/-- All literals in an expression are exact. -/
def Exact (e : Expr) : Prop := e.Each ExactHere

variable {e l r test : Expr} {type : Ty}

theorem Exact.of_parts (here : e.ExactHere) (hparts : ∀ p ∈ e.parts, p.Exact) : e.Exact :=
  each_iff.2 ⟨here, hparts⟩

theorem Exact.leaf (here : e.ExactHere) (hparts : e.parts = []) : e.Exact :=
  (each_leaf hparts).2 here

/-- Only whole numbers can be too large. -/
theorem exact_literal {v : Value} (h : ∀ n, v ≠ .int n) : (literal v type).Exact :=
  .leaf (fun n hn => absurd hn (h n)) rfl

theorem exact_emptyList (type : Ty) : (emptyList type).Exact := .leaf trivial rfl

theorem exact_unary {op : UnaryOp} : (unary op e type).Exact ↔ e.Exact :=
  each_unary.trans (and_iff_right trivial)

theorem exact_binary {op : BinaryOp} : (binary op l r type).Exact ↔ l.Exact ∧ r.Exact :=
  each_binary.trans (and_iff_right trivial)

theorem exact_coalesce : (coalesce l r type).Exact ↔ l.Exact ∧ r.Exact :=
  each_coalesce.trans (and_iff_right trivial)

theorem exact_subscript : (subscript l r type).Exact ↔ l.Exact ∧ r.Exact :=
  (each_pair rfl).trans (and_iff_right trivial)

theorem exact_ternary : (ternary test l r type).Exact ↔ test.Exact ∧ l.Exact ∧ r.Exact :=
  each_ternary.trans (and_iff_right trivial)

end Typed.Expr

namespace Check

open Typed

variable {α : Type} {N : Kind → String → Prop} {e l r : Expr}

/-! ### Types -/

mutual

/-- Resolving a type only looks at the state. -/
theorem resolve_looks (t : Tree.TypeExpr) : Looks N (resolve t) := by
  cases t with
  | named name span =>
    unfold resolve
    split
    · exact .pure _
    · refine (Looks.lookup name).bind fun symbol => ?_
      split
      · exact .fail _ _
      · exact .pure _
      · exact .fail _ _
  | list element span => exact (resolve_looks element).bind fun _ => .pure _
  | optional base span => exact (resolve_looks base).bind fun _ => .pure _
  | function params result span =>
    exact (resolveAll_looks params).bind fun _ => (resolve_looks result).bind fun _ => .pure _

theorem resolveAll_looks (ts : List Tree.TypeExpr) : Looks N (resolveAll ts) := by
  cases ts with
  | nil => exact .pure _
  | cons t rest =>
    exact (resolve_looks t).bind fun _ => (resolveAll_looks rest).bind fun _ => .pure _

end

/-! ### Rules -/

theorem asValue_views {Q : Expr → Prop} (he : Q e) (span : Span) : Views N Q (asValue e span) :=
  .next (.require _ _ _) fun _ => .pure he

theorem asValue_looks (e : Expr) (span : Span) : Looks N (asValue e span) :=
  (asValue_views (Q := fun _ => True) trivial span).looks

theorem coerce_views (he : e.Exact) (target : Ty) (span : Span) :
    Views N Expr.Exact (coerce e target span) := by
  unfold coerce
  split
  · exact .pure (Expr.exact_emptyList target)
  · exact .next (.require _ _ _) fun _ => .pure he

theorem unify_exact (hl : l.Exact) (hr : r.Exact) :
    (unify l r).1.Exact ∧ (unify l r).2.Exact := by
  unfold unify
  split_ifs
  · exact ⟨Expr.exact_emptyList _, hr⟩
  · exact ⟨hl, Expr.exact_emptyList _⟩
  · exact ⟨hl, hr⟩

theorem integer_views {text : String} (h : N .integer text) (span : Span) :
    Views N Expr.Exact (integer text span) := by
  unfold integer
  split
  next hvalue => exact .throw (.integer h hvalue)
  next n hvalue =>
    refine (Views.require _ _ _).bind fun _ hexact => .pure (.leaf ?_ rfl)
    rintro m ⟨⟩
    simpa using hexact

theorem float_views {text : String} (h : N .float text) : Views N Expr.Exact (float text) := by
  unfold float
  split
  next hvalue => exact .throw (.float h hvalue)
  next => exact .pure (Expr.exact_literal (by simp))

theorem symbolValue_views (name : String) (span : Span) (symbol : Symbol) :
    Views N Expr.Exact (symbolValue name span symbol) := by
  cases symbol with
  | object o => exact .fail _ _
  | var _ | param _ | func _ _ => exact .pure (.leaf trivial rfl)

theorem identify_looks (name : String) (span : Span) : Looks N (identify name span) := by
  refine (Looks.lookup name).bind fun symbol => ?_
  split
  · exact .pure _
  · exact .fail _ _

theorem list_views {es : List Expr} (hes : ∀ e ∈ es, e.Exact) (spans : List Span) :
    Views N Expr.Exact (list es spans) := by
  unfold list
  extract_lets decisive type elements
  have helements : ∀ e ∈ elements, e.Exact := by
    intro e he
    simp only [elements] at he
    split at he
    · obtain ⟨e', he', rfl⟩ := List.mem_map.1 he
      split
      · exact Expr.exact_emptyList type
      · exact hes e' he'
    · exact hes e he
  split
  · exact .fail _ _
  · exact .pure (.of_parts trivial helements)

theorem unary_views (op : UnaryOp) (he : e.Exact) (span : Span) :
    Views N Expr.Exact (unary op e span) := by
  cases op with
  | neg | not => exact .next (.require _ _ _) fun _ => .pure (Expr.exact_unary.2 he)
  | some => exact .pure (Expr.exact_unary.2 he)

theorem binary_views (op : BinaryOp) (hl : l.Exact) (hr : r.Exact) (spanl spanr span : Span) :
    Views N Expr.Exact (binary op l r spanl spanr span) := by
  cases op with
  | eq | ne =>
    obtain ⟨hl, hr⟩ := unify_exact hl hr
    exact .next (.require _ _ _) fun _ => .pure (Expr.exact_binary.2 ⟨hl, hr⟩)
  | and | or | lt | le | gt | ge | add | sub | mul | div | pow =>
    exact .next (.require _ _ _) fun _ => .next (.require _ _ _) fun _ =>
      .pure (Expr.exact_binary.2 ⟨hl, hr⟩)

theorem subscript_views (hl : l.Exact) (hr : r.Exact) (span : Span) :
    Views N Expr.Exact (subscript l r span) := by
  unfold subscript
  split
  · exact .pure (Expr.exact_subscript.2 ⟨hl, hr⟩)
  · exact .next (.require _ _ _) fun _ => .pure (Expr.exact_subscript.2 ⟨hl, hr⟩)

theorem member_views (he : e.Exact) (access : Access) (name : String) (objectSpan span : Span) :
    Views N Expr.Exact (member e access name objectSpan span) := by
  have hreceiver : Looks N (receiver e access objectSpan) := by
    cases access <;>
    · simp only [receiver]
      split
      · exact .pure _
      · exact .fail _ _
  refine .next hreceiver fun owner => .next (.objectInfo owner) fun info => ?_
  split
  · exact .fail _ _
  · exact .pure (.of_parts trivial (List.forall_mem_singleton.2 he))

theorem expectName_looks (given wanted : Option String) (span : Span) :
    Looks N (expectName given wanted span) := by
  unfold expectName
  split
  · exact .pure _
  · exact .fail _ _
  · exact .require _ _ _

/-! ### Expressions -/

/-- Lists of expressions, arguments of calls and parts of strings with exact literals. -/
def AllExact (es : List Expr) : Prop := ∀ e ∈ es, e.Exact

def ArgsExact (args : List Arg) : Prop := AllExact (args.map Arg.value)

def PartsExact (parts : List Part) : Prop := AllExact (parts.filterMap Part.value?)

theorem Views.value {x : Check Expr} {k : Expr → Check α} {Q : α → Prop}
    (hx : Views N Expr.Exact x) (span : Span) (hk : ∀ v, v.Exact → Views N Q (k v)) :
    Views N Q (x >>= fun e => asValue e span >>= k) :=
  hx.bind fun _ he => (asValue_views he span).bind hk

/-- A call of a value that may be a function. -/
theorem callValue_views {c : Expr} {args : List Tree.Argument} (span failing : Span)
    (hc : c.Exact) (hargs : ∀ slots, Views N ArgsExact (exprArguments args slots)) :
    Views N Expr.Exact (match c.type with
      | .function params result names => do
        let slots := slots params names
        expectCount args.length slots.length span
        let args ← exprArguments args slots
        pure (.call c args result)
      | type => Check.fail (.notCallable type) failing) := by
  split
  · exact .next (.require _ _ _) fun _ => (hargs _).bind fun args has =>
      .pure (.of_parts trivial (List.forall_mem_cons.2 ⟨hc, has⟩))
  · exact .fail _ _

theorem application_views (callee : Tree.Expr) {args : List Tree.Argument} (span : Span)
    (hcallee : Views N Expr.Exact (expr callee))
    (hargs : ∀ slots, Views N ArgsExact (exprArguments args slots)) :
    Views N Expr.Exact (expr (.call callee args span)) := by
  by_cases hname : ∃ name nameSpan, callee = .identifier name nameSpan
  · obtain ⟨name, nameSpan, rfl⟩ := hname
    refine .next (identify_looks name nameSpan) fun symbol => ?_
    split
    · exact .next (.objectInfo _) fun info => .next (.require _ _ _) fun _ =>
        (hargs _).bind fun as has => .pure (.of_parts trivial has)
    · exact (symbolValue_views name nameSpan _).bind fun c hc =>
        callValue_views span nameSpan hc hargs
  · rw [expr]
    · exact hcallee.value _ fun c hc => callValue_views span callee.span hc hargs
    · exact fun name nameSpan h => hname ⟨name, nameSpan, h⟩

theorem parts_views (t : Tree.Expr) {rest : List Tree.Expr} (ht : Views N Expr.Exact (expr t))
    (hrest : Views N PartsExact (exprParts rest)) :
    Views N PartsExact (exprParts (t :: rest)) := by
  by_cases htext : ∃ value span, t = .string value span
  · obtain ⟨value, span, rfl⟩ := htext
    exact hrest.bind fun ps hps => .pure hps
  · rw [exprParts]
    · exact ht.value _ fun v hv => hrest.bind fun ps hps =>
        .pure (List.forall_mem_cons.2 ⟨hv, hps⟩)
    · exact fun value span h => htext ⟨value, span, h⟩

mutual

/-- Checking an expression only looks at the state, and gives exact literals. -/
theorem expr_views (t : Tree.Expr) (ht : t.Numerals N) : Views N Expr.Exact (expr t) := by
  match t with
  | .integer text span => exact integer_views ht span
  | .float text span => exact float_views ht
  | .boolean value span => exact .pure (Expr.exact_literal (v := .bool value) (by simp))
  | .string value span => exact .pure (Expr.exact_literal (v := .string value) (by simp))
  | .interpolation parts span =>
    exact (exprParts_views parts ht).bind fun ps hps => .pure (.of_parts trivial hps)
  | .identifier name span =>
    exact .next (identify_looks name span) fun symbol => symbolValue_views name span symbol
  | .mine span =>
    refine .next .flags fun f => ?_
    split
    · exact .fail _ _
    · exact .pure (.leaf trivial rfl)
  | .naught type span => exact .next (resolve_looks type) fun _ => .pure (.leaf trivial rfl)
  | .list [] span => exact .pure (Expr.exact_emptyList _)
  | .list (first :: rest) span =>
    exact (expr_views first ht.1).value _ fun v hv => (exprValues_views rest ht.2).bind
      fun vs hvs => list_views (List.forall_mem_cons.2 ⟨hv, hvs⟩) _
  | .unary op operand span =>
    exact (expr_views operand ht).value _ fun v hv => unary_views op hv _
  | .binary left op right span =>
    exact (expr_views left ht.1).value _ fun l hl => (expr_views right ht.2).value _ fun r hr =>
      binary_views op hl hr _ _ _
  | .ternary test consequent alternate span =>
    refine (expr_views test ht.1).bind fun t ht' => .next (.require _ _ _) fun _ => ?_
    refine (expr_views consequent ht.2.1).value _ fun c hc =>
      (expr_views alternate ht.2.2).value _ fun a ha => ?_
    obtain ⟨hc, ha⟩ := unify_exact hc ha
    exact .next (.require _ _ _) fun _ => .pure (Expr.exact_ternary.2 ⟨ht', hc, ha⟩)
  | .coalesce optional fallback span =>
    refine (expr_views optional ht.1).bind fun o ho => ?_
    split
    · exact .fail _ _
    · exact (expr_views fallback ht.2).value _ fun f hf => (coerce_views hf _ _).bind fun f hf =>
        .pure (Expr.exact_coalesce.2 ⟨ho, hf⟩)
  | .call callee args span =>
    exact application_views callee span (expr_views callee ht.1) (exprArguments_views args ht.2)
  | .index collection index span =>
    exact (expr_views collection ht.1).value _ fun c hc => (expr_views index ht.2).value _
      fun i hi => .next (.require _ _ _) fun _ => subscript_views hc hi _
  | .member object access name span =>
    exact (expr_views object ht).value _ fun o ho => member_views ho access name _ _

theorem exprValues_views (ts : List Tree.Expr) (hts : Tree.exprsNumerals N ts) :
    Views N AllExact (exprValues ts) := by
  match ts with
  | [] => exact .pure (List.forall_mem_nil _)
  | t :: rest =>
    exact (expr_views t hts.1).value _ fun v hv => (exprValues_views rest hts.2).bind
      fun vs hvs => .pure (List.forall_mem_cons.2 ⟨hv, hvs⟩)

theorem exprParts_views (parts : List Tree.Expr) (hparts : Tree.exprsNumerals N parts) :
    Views N PartsExact (exprParts parts) := by
  match parts with
  | [] => exact .pure (List.forall_mem_nil _)
  | t :: rest => exact parts_views t (expr_views t hparts.1) (exprParts_views rest hparts.2)

theorem exprArguments_views (args : List Tree.Argument) (hargs : Tree.argumentsNumerals N args)
    (slots : List (Option String × Ty)) : Views N ArgsExact (exprArguments args slots) := by
  match args, slots with
  | [], [] | [], _ :: _ | .mk .. :: _, [] => exact .pure (List.forall_mem_nil _)
  | .mk name value span :: args, (wanted, type) :: params =>
    exact .next (expectName_looks name wanted span) fun _ => (expr_views value hargs.1).value _
      fun v hv => (coerce_views hv _ _).bind fun v hv =>
      (exprArguments_views args hargs.2 params).bind fun as has =>
      .pure (List.forall_mem_cons.2 ⟨hv, has⟩)

end

theorem valueFor_views (type : Ty) {t : Tree.Expr} (ht : t.Numerals N) :
    Views N Expr.Exact (valueFor type t) :=
  (expr_views t ht).value _ fun _ hv => coerce_views hv type _

theorem expr_looks (t : Tree.Expr) (ht : t.Numerals N) : Looks N (expr t) :=
  (expr_views t ht).looks

theorem valueFor_looks (type : Ty) {t : Tree.Expr} (ht : t.Numerals N) :
    Looks N (valueFor type t) := (valueFor_views type ht).looks

/-! ### Forges -/

/-- A statement assigns nothing but expressions whose numbers have a property. -/
def Assigns (N : Kind → String → Prop) (t : Tree.Stmt) : Prop :=
  ∀ target value span, t = .assign target value span → value.Numerals N

theorem forgeTarget_looks (ref : ObjectRef) {t : Tree.Stmt} (ht : Assigns N t) (s : State) :
    Ends (forgeTarget ref t) s (fun p s' => s' = s ∧ p.2.Numerals N)
      fun e s' => s' = s ∧ e.From N := by
  unfold forgeTarget
  split
  · refine .bind ((Looks.objectInfo ref s).mono (fun info s' hs => ?_) fun _ _ h => h)
    split
    · exact .pure ⟨hs, ht _ _ _ rfl⟩
    · exact .throw ⟨hs, .violation _⟩
  · exact .throw ⟨rfl, .violation _⟩

/-- The values that a forge collects are exact, if those that it has already are. -/
theorem forgeBody_views (ref : ObjectRef) (assigned : List (String × Expr))
    {ts : List Tree.Stmt} (hts : ∀ t ∈ ts, Assigns N t) :
    Views N (fun values => AllExact (assigned.map (·.2)) → AllExact (values.map (·.2)))
      (forgeBody ref assigned ts) := by
  induction ts generalizing assigned with
  | nil => exact .pure id
  | cons t rest ih =>
    obtain ⟨ht, hrest⟩ := List.forall_mem_cons.1 hts
    refine fun s => .bind ((forgeTarget_looks ref ht s).mono (fun p s' h => ?_) fun _ _ h => h)
    obtain ⟨rfl, hvalue⟩ := h
    refine Views.next (.require _ _ _) (fun _ => (valueFor_views _ hvalue).bind fun v hv => ?_) s'
    refine fun s => (ih _ hrest s).mono (fun values _ h => ⟨h.1, fun hassigned => h.2 ?_⟩)
      fun _ _ h => h
    rw [List.map_append]
    exact List.forall_mem_append.2 ⟨hassigned, List.forall_mem_singleton.2 hv⟩

/-! ### Checks that succeed -/

/-- A check that leaves every state alone if it succeeds. -/
def Keeps (m : Check α) : Prop := ∀ s, Yields m s fun _ => True

theorem Looks.keeps {m : Check α} (h : Looks N m) : Keeps m :=
  fun s => (h s).ensures.mono fun _ _ hs => ⟨hs, trivial⟩

theorem resolve_keeps (t : Tree.TypeExpr) : Keeps (resolve t) :=
  (resolve_looks (N := fun _ _ => True) t).keeps

theorem asValue_keeps (e : Expr) (span : Span) : Keeps (asValue e span) :=
  (asValue_looks (N := fun _ _ => True) e span).keeps

theorem expr_keeps (e : Tree.Expr) : Keeps (expr e) := (expr_looks e e.numerals_trivial).keeps

theorem valueFor_keeps (type : Ty) (e : Tree.Expr) : Keeps (valueFor type e) :=
  (valueFor_looks type e.numerals_trivial).keeps

theorem forgeBody_keeps (ref : ObjectRef) (assigned : List (String × Expr))
    (ts : List Tree.Stmt) : Keeps (forgeBody ref assigned ts) :=
  (forgeBody_views ref assigned fun _ _ _ value _ _ => value.numerals_trivial).looks.keeps

end Check

end Dragon
