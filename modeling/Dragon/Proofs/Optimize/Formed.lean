import Dragon.Proofs.Optimize.Inside
import Dragon.Proofs.Optimize.Parts
import Dragon.Proofs.Typing.Formed

/-!
# Optimization keeps the form of programs

What an expression is simplified to can stand for it: a choice or a fallback may give way to a part
of a narrower type, so more than the last step has to be known to fit. The statements that are left
declare nothing new.
-/
namespace Dragon.Typed

/-! ### Literals -/

theorem Value.type_negate {u v : Value} (hu : u.type.isNumeric = true) (h : u.negate? = some v) :
    v.type = u.type := by
  cases u with
  | int n | float x =>
    cases h
    rfl
  | bool b | string s => cases hu

theorem arithmetic?_whole (op : BinaryOp) (a b : ℤ) :
    Value.arithmetic? op true (.int a) (.int b) = (foldInt? op a b).map .int := by
  show ((foldInt? op a b).map Number.whole).map Value.ofNumber = _
  rw [Option.map_map]
  rfl

theorem arithmetic?_double (op : BinaryOp) (x y : Float) :
    Value.arithmetic? op false (.float x) (.float y) = (foldFloat? op x y).map .float := by
  show ((foldFloat? op x y).map Number.double).map Value.ofNumber = _
  rw [Option.map_map]
  rfl

theorem Value.type_arithmetic {op : BinaryOp} {t : Ty} {a b v : Value} (ht : t.isNumeric = true)
    (ha : t = a.type) (hb : t = b.type) (h : Value.arithmetic? op (t.is .int) a b = some v) :
    t = v.type := by
  obtain rfl | rfl := Ty.isNumeric_eq_true.1 ht
  · cases a <;> cases ha
    cases b <;> cases hb
    obtain ⟨n, -, rfl⟩ := Option.map_eq_some_iff.1 ((arithmetic?_whole op _ _).symm.trans h)
    rfl
  · cases a <;> cases ha
    cases b <;> cases hb
    obtain ⟨x, -, rfl⟩ := Option.map_eq_some_iff.1 ((arithmetic?_double op _ _).symm.trans h)
    rfl

/-! ### Operands that give way to others -/

/-- An operand of a narrower type fits as well. -/
theorem UnaryFits.mono {op : UnaryOp} {operand operand' result : Ty}
    (h : UnaryFits op operand result) (hs : operand'.assignable operand = true) :
    UnaryFits op operand' result := by
  cases op with
  | neg =>
    obtain ⟨rfl, hnumeric⟩ := h
    exact ⟨Ty.eq_of_assignable_scalar (Ty.mem_scalars_of_isNumeric hnumeric) hs, hnumeric⟩
  | not =>
    obtain ⟨rfl, rfl⟩ := h
    exact ⟨Ty.eq_of_assignable_scalar Ty.bool_mem_scalars hs, rfl⟩
  | some =>
    obtain ⟨base, hresult, hbase⟩ := h
    exact ⟨base, hresult, Ty.assignable_trans _ _ _ hs hbase⟩

theorem BinaryFits.mono {op : BinaryOp} {left left' right right' result : Ty}
    (h : BinaryFits op left right result) (hl : left'.assignable left = true)
    (hr : right'.assignable right = true) : BinaryFits op left' right' result := by
  cases op with
  | and | or =>
    obtain ⟨rfl, rfl, rfl⟩ := h
    exact ⟨Ty.eq_of_assignable_scalar Ty.bool_mem_scalars hl,
      Ty.eq_of_assignable_scalar Ty.bool_mem_scalars hr, rfl⟩
  | eq | ne | lt | le | gt | ge => exact h
  | add | sub | mul | div | pow =>
    obtain ⟨rfl, rfl, hscalar⟩ := h
    exact ⟨Ty.eq_of_assignable_scalar hscalar hl, Ty.eq_of_assignable_scalar hscalar hr, hscalar⟩

/-- The operands of arithmetic have its type. -/
theorem BinaryFits.operands {op : BinaryOp} {left right result : Ty}
    (h : BinaryFits op left right result) (hresult : result ≠ .bool) :
    left = result ∧ right = result := by
  cases op with
  | add | sub | mul | div | pow => exact ⟨h.1, h.2.1⟩
  | and | or => exact absurd h.2.2 hresult
  | eq | ne | lt | le | gt | ge => exact absurd h hresult

namespace Expr

/-- Everywhere in an expression, parts fit. -/
def Coherent (e : Expr) : Prop := e.Each Fits

/-- A coherent expression that can stand where one of a type was. -/
structure Replaces (e : Expr) (type : Ty) : Prop where
  coherent : e.Coherent
  narrower : e.type.assignable type = true

variable {e l r test o f : Expr} {type : Ty}

theorem replaces_self (h : e.Coherent) : e.Replaces e.type := ⟨h, Ty.assignable_refl _⟩

theorem coherent_literal {v : Value} {t : Ty} (h : t = v.type) : (literal v t).Coherent :=
  (each_leaf rfl).2 h

/-! ### Operations -/

theorem replaces_truth (b : Bool) : (truth b).Replaces .bool :=
  replaces_self (coherent_literal rfl)

theorem replaces_negate (h : (unary .neg e type).Coherent) : (e.negate type).Replaces type := by
  obtain ⟨⟨hoperand, hnumeric⟩, he⟩ := each_unary.1 h
  subst hoperand
  unfold negate
  split
  next v hv =>
    obtain ⟨u, hu, hnegative⟩ := Option.bind_eq_some_iff.1 hv
    obtain ⟨t, rfl, -⟩ := number?_eq_some hu
    obtain rfl : t = u.type := he.here
    exact replaces_self (coherent_literal (Value.type_negate hnumeric hnegative).symm)
  next =>
    split
    next inner t =>
      obtain ⟨⟨hinner, -⟩, hcoherent⟩ := each_unary.1 he
      exact ⟨hcoherent, hinner ▸ Ty.assignable_refl _⟩
    next => exact replaces_self h

theorem replaces_applyUnary {op : UnaryOp} (h : (unary op e type).Coherent) :
    (applyUnary op e type).Replaces type := by
  cases op with
  | neg => exact replaces_negate h
  | not =>
    obtain ⟨⟨-, rfl⟩, -⟩ := each_unary.1 h
    simp only [applyUnary, invert]
    split
    next v _ => exact replaces_truth _
    next => exact replaces_self h
  | some => exact replaces_self h

/-- A folded literal has the type of the operation. -/
theorem replaces_fold? {op : BinaryOp} {folded : Logged Expr} (h : (binary op l r type).Coherent)
    (hfold : fold? op l r type = some folded) : folded.value.Replaces type := by
  obtain ⟨hfits, hl, hr⟩ := each_binary.1 h
  unfold fold? at hfold
  split at hfold
  next u v hu hv =>
    split_ifs at hfold with hbool
    · obtain ⟨b, -, rfl⟩ := Option.map_eq_some_iff.1 hfold
      rw [Ty.is_eq_true.1 hbool]
      exact replaces_truth b
    · obtain ⟨w, hw, rfl⟩ := Option.map_eq_some_iff.1 hfold
      obtain ⟨t, rfl, ht⟩ := number?_eq_some hu
      obtain ⟨t', rfl, -⟩ := number?_eq_some hv
      obtain ⟨rfl, rfl⟩ : t = type ∧ t' = type :=
        BinaryFits.operands hfits fun h => hbool (Ty.is_eq_true.2 h)
      exact replaces_self (coherent_literal (Value.type_arithmetic ht hl.here hr.here hw))
  next =>
    split at hfold
    iterate 2
      obtain rfl : type = .bool := hfits
      cases hfold
      exact replaces_truth _
    · cases hfold

theorem coherent_one (hnumeric : type.isNumeric = true) : (one type).Coherent := by
  obtain rfl | rfl := Ty.isNumeric_eq_true.1 hnumeric <;> exact coherent_literal rfl

/-- Only arithmetic has operands that do not matter, and they have its type. -/
theorem replaces_identity? {op : BinaryOp} (h : (binary op l r type).Coherent)
    (hnumeric : type.isNumeric = true) (hidentity : identity? op l r type = some e) :
    e.Replaces type := by
  obtain ⟨hfits, hl, hr⟩ := each_binary.1 h
  have hbool : type ≠ .bool := by
    rintro rfl
    cases hnumeric
  obtain ⟨hleft, hright⟩ := BinaryFits.operands hfits hbool
  obtain rfl | rfl | rfl | rfl := identity?_cases hidentity
  · exact ⟨hl, hleft ▸ Ty.assignable_refl _⟩
  · exact ⟨hr, hright ▸ Ty.assignable_refl _⟩
  · exact replaces_negate (each_unary.2 ⟨⟨hright, hnumeric⟩, hr⟩)
  · exact replaces_self (coherent_one hnumeric)

theorem replaces_combine {op : BinaryOp} (h : (binary op l r type).Coherent) :
    (combine op l r type).value.Replaces type := by
  unfold combine
  split
  next folded hfold => exact replaces_fold? h hfold
  next =>
    split
    next e hidentity =>
      split_ifs at hidentity with hnumeric
      exact replaces_identity? h hnumeric hidentity
    next => exact replaces_self h

theorem replaces_applyBinary {op : BinaryOp} (h : (binary op l r type).Coherent) :
    (applyBinary op l r type).value.Replaces type := by
  have hsame := replaces_self h
  cases op with
  | and | or =>
    obtain ⟨⟨hleft, hright, rfl⟩, hl, hr⟩ := each_binary.1 h
    have hl' : l.Replaces .bool := ⟨hl, hleft ▸ Ty.assignable_refl _⟩
    have hr' : r.Replaces .bool := ⟨hr, hright ▸ Ty.assignable_refl _⟩
    simp only [applyBinary, conjoin, disjoin, Logged.value_pure]
    split_ifs <;> assumption
  | _ => exact replaces_combine h

theorem replaces_choose (h : (ternary test l r type).Coherent) :
    (test.choose l r type).Replaces type := by
  obtain ⟨⟨hleft, hright⟩, -, hl, hr⟩ := each_ternary.1 h
  unfold choose
  split
  next => exact ⟨hl, hleft⟩
  next => exact ⟨hr, hright⟩
  next => exact replaces_self h

theorem replaces_orElse (h : (coalesce o f type).Coherent) : (o.orElse f type).Replaces type := by
  obtain ⟨⟨hoptional, hfallback⟩, ho, hf⟩ := each_coalesce.1 h
  unfold orElse
  split
  next => exact ⟨hf, hfallback⟩
  next inner t =>
    -- What is known to be there fits the optional it is put in, and that one fits the fallback's.
    obtain ⟨⟨base, rfl, hbase⟩, hinner⟩ := each_unary.1 ho
    have hequivalent := Ty.equivalent_of_assignable_optional hoptional
    exact ⟨hinner, Ty.assignable_trans _ _ _ hbase (Ty.assignable_of_equivalent hequivalent)⟩
  next => exact replaces_self h

theorem replaces_simplify (e : Expr) (he : e.Coherent) : e.simplify.Replaces e.type := by
  cases e with
  | unary => exact replaces_applyUnary he
  | binary => exact replaces_applyBinary he
  | ternary => exact replaces_choose he
  | coalesce => exact replaces_orElse he
  | _ => exact replaces_self he

/-! ### Expressions -/

/-- An expression fits with its parts optimized. -/
theorem fits_optimizedParts (e : Expr)
    (hparts : ∀ p ∈ e.parts, p.optimize.value.type.assignable p.type = true) (he : e.Fits) :
    e.optimizedParts.Fits := by
  cases e with
  | unary op e t => exact UnaryFits.mono he (hparts e List.mem_cons_self)
  | binary op l r t =>
    exact BinaryFits.mono he (hparts l (by simp [parts])) (hparts r (by simp [parts]))
  | ternary test c a t | coalesce c a t =>
    exact ⟨Ty.assignable_trans _ _ _ (hparts c (by simp [parts])) he.1,
      Ty.assignable_trans _ _ _ (hparts a (by simp [parts])) he.2⟩
  | subscript c i t =>
    exact Ty.bare_of_assignable (hparts c List.mem_cons_self) he
  | _ => exact he

theorem replaces_optimize (e : Expr) (he : e.Coherent) : e.optimize.value.Replaces e.type := by
  obtain ⟨hcoherent, hnarrower⟩ := each_optimize
    (S := fun t t' => t.assignable t' = true) fits_optimizedParts
    (fun e he => ⟨(e.replaces_simplify he).coherent, (e.replaces_simplify he).narrower⟩) e he
  exact ⟨hcoherent, hnarrower⟩

theorem formed_optimize (e : Expr) (he : e.Formed) : e.optimize.value.Formed := by
  obtain ⟨hfits, hspelled⟩ := each_and.1 he
  refine each_and.2 ⟨(e.replaces_optimize hfits).coherent, ?_⟩
  exact each_optimize_of_leaf (fun e he => by cases e <;> exact he) (fun _ _ _ => trivial)
    (fun _ _ _ _ _ => trivial) hspelled

end Expr

/-! ### Statements -/

theorem formed_optimizeFields (fields : List FieldInit) (h : ∀ f ∈ fields, f.Formed .guild) :
    ∀ f ∈ (optimizeFields fields).value, f.Formed .guild := by
  rw [optimizeFields_eq]
  refine List.forall_mem_map.2 fun f hf => ?_
  have hf := h f hf
  obtain ⟨field, value⟩ := f
  cases value with
  | none => exact hf.2.elim
  | some value => exact ⟨hf.1, value.formed_optimize hf.2⟩

/-- Optimized statements keep their form. -/
theorem Stmt.formedHere_optimized {s : Stmt} (hs : s.FormedHere) : s.optimized.FormedHere := by
  cases s with
  | declare mutable v e => exact ⟨hs.1, e.formed_optimize hs.2⟩
  | print e | increment e | decrement e | return_ e | call e | branch e | while_ e | repeat_ e =>
    exact e.formed_optimize hs
  | object kind ref fields parameters methods =>
    cases kind with
    | matter => exact hs
    | guild =>
      refine ⟨hs.1, formed_optimizeFields fields hs.2.1, hs.2.2.1, ?_, by simp⟩
      rw [func_optimizeMethods]
      exact hs.2.2.2.1
  | assign target source => exact ⟨target.formed_optimize hs.1, source.formed_optimize hs.2⟩
  | range iterator low kind high body =>
    exact ⟨hs.1, low.formed_optimize hs.2.1, high.formed_optimize hs.2.2⟩
  | forEach iterator e body => exact ⟨hs.1, e.formed_optimize hs.2⟩
  | function | shortReturn | break_ => exact hs
  | foreignRange | expr | bare | misplaced => exact hs.elim

theorem Stmt.FormedHere.regular {s : Stmt} (hs : s.FormedHere) : s.Regular := by
  cases s with
  | function f body => exact hs.own
  | object kind ref fields parameters methods =>
    exact ⟨hs.2.2.2.2, fun m hm => (hs.2.2.2.1 m.func (List.mem_map_of_mem hm)).own⟩
  | _ => trivial

theorem blockFormed_optimizeBlock (ss : List Stmt) (hss : blockFormed ss) :
    blockFormed (optimizeBlock ss).value := by
  intro s hs
  have hshrinks := shrinks_optimizeBlock ss fun s hs => (hss s hs).regular
  obtain ⟨s₀, hs₀, rfl⟩ := List.mem_map.1 (hshrinks.subset hs)
  exact Stmt.formedHere_optimized (hss s₀ hs₀)

end Dragon.Typed
