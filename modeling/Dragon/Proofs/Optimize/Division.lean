import Dragon.Proofs.Optimize.Calls
import Dragon.Proofs.Optimize.Faults
import Dragon.Proofs.Optimize.Plain
import Dragon.Proofs.Optimize.Reduct

/-!
# Divisions by zero in optimized expressions

A fold leaves a division by zero for run time, but a shortcut may still apply to it, and a shortcut
drops an operand whether or not a division by zero is in it: a product with zero, a quotient of zero
and a power with the exponent zero always have a result once they are optimized. These are the only
places where a division by zero gets lost.
-/
namespace Dragon.Typed

/-! ### Expressions inside others -/

mutual

/-- An expression and all those in it that are evaluated with it. -/
def Expr.within : Expr → List Expr
  | .unary op operand t => .unary op operand t :: operand.within
  | .binary op left right t => .binary op left right t :: (left.within ++ right.within)
  | .ternary test consequent alternate t =>
    .ternary test consequent alternate t ::
      (test.within ++ consequent.within ++ alternate.within)
  | .coalesce optional fallback t => .coalesce optional fallback t ::
    (optional.within ++ fallback.within)
  | .list elements t => .list elements t :: withinAll elements
  | .subscript collection index t => .subscript collection index t ::
    (collection.within ++ index.within)
  | .member object access member t => .member object access member t :: object.within
  | .call callee args t => .call callee args t :: (callee.within ++ withinArgs args)
  | .construct object args t => .construct object args t :: withinArgs args
  | .template parts t => .template parts t :: withinParts parts
  | e => [e]

def withinAll : List Expr → List Expr
  | [] => []
  | e :: rest => e.within ++ withinAll rest

def withinArgs : List Arg → List Expr
  | [] => []
  | .mk _ value :: rest => value.within ++ withinArgs rest

def withinParts : List Part → List Expr
  | [] => []
  | .text _ :: rest => withinParts rest
  | .hole e :: rest => e.within ++ withinParts rest

end

theorem Expr.mem_within_self (e : Expr) : e ∈ e.within := by
  cases e <;> exact List.mem_cons_self

/-- A plain expression, with all that is inside it among some expressions. -/
def Expr.PlainIn (es : List Expr) (f : Expr) : Prop := f.plain = true ∧ f.within ⊆ es

theorem Expr.PlainIn.cons {e f : Expr} {es : List Expr} (hf : f.PlainIn es) : f.PlainIn (e :: es) :=
  ⟨hf.1, List.subset_cons_of_subset e hf.2⟩

theorem plainIn_append {es fs : List Expr} (hes : ∀ f ∈ es, f.PlainIn es)
    (hfs : ∀ f ∈ fs, f.PlainIn fs) : ∀ f ∈ es ++ fs, f.PlainIn (es ++ fs) :=
  List.forall_mem_append.2
    ⟨fun f hf => ⟨(hes f hf).1, List.subset_append_of_subset_left fs (hes f hf).2⟩,
      fun f hf => ⟨(hfs f hf).1, List.subset_append_of_subset_right es (hfs f hf).2⟩⟩

theorem Expr.plainIn_cons {e : Expr} {es : List Expr} (he : e.plain = true)
    (hwithin : e.within = e :: es) (hes : ∀ f ∈ es, f.PlainIn es) :
    ∀ f ∈ e.within, f.PlainIn e.within := by
  have hself : e.PlainIn e.within := ⟨he, List.Subset.refl _⟩
  rw [hwithin] at hself ⊢
  exact List.forall_mem_cons.2 ⟨hself, fun f hf => (hes f hf).cons⟩

mutual

/-- What is inside a plain expression is plain, and all that is inside it is inside the former. -/
theorem Expr.plainIn_within (e : Expr) (he : e.plain = true) :
    ∀ f ∈ e.within, f.PlainIn e.within := by
  have hplain := he
  cases e with
  | unary op e t | member e access m t => exact Expr.plainIn_cons he rfl (e.plainIn_within hplain)
  | binary op l r t =>
    simp only [Expr.plain, Bool.and_eq_true] at hplain
    exact Expr.plainIn_cons he rfl
      (plainIn_append (l.plainIn_within hplain.1.2) (r.plainIn_within hplain.2))
  | ternary c l r t =>
    simp only [Expr.plain, Bool.and_eq_true] at hplain
    exact Expr.plainIn_cons he rfl (plainIn_append
      (plainIn_append (c.plainIn_within hplain.1.1) (l.plainIn_within hplain.1.2))
      (r.plainIn_within hplain.2))
  | coalesce l r t | subscript l r t =>
    simp only [Expr.plain, Bool.and_eq_true] at hplain
    exact Expr.plainIn_cons he rfl
      (plainIn_append (l.plainIn_within hplain.1) (r.plainIn_within hplain.2))
  | list es t => exact Expr.plainIn_cons he rfl (plainIn_withinAll es hplain)
  | template parts t => exact Expr.plainIn_cons he rfl (plainIn_withinParts parts hplain)
  | call | construct => cases he
  | _ => exact Expr.plainIn_cons he rfl (List.forall_mem_nil _)

theorem plainIn_withinAll (es : List Expr) (hes : plainAll es = true) :
    ∀ f ∈ withinAll es, f.PlainIn (withinAll es) := by
  cases es with
  | nil => exact List.forall_mem_nil _
  | cons e rest =>
    simp only [plainAll, Bool.and_eq_true] at hes
    exact plainIn_append (e.plainIn_within hes.1) (plainIn_withinAll rest hes.2)

theorem plainIn_withinParts (parts : List Part) (hparts : plainParts parts = true) :
    ∀ f ∈ withinParts parts, f.PlainIn (withinParts parts) := by
  match parts with
  | [] => exact List.forall_mem_nil _
  | .text s :: rest => exact plainIn_withinParts rest hparts
  | .hole e :: rest =>
    simp only [plainParts, Bool.and_eq_true] at hparts
    exact plainIn_append (e.plainIn_within hparts.1) (plainIn_withinParts rest hparts.2)

end

/-- An operand that decides the result of an operation, whatever the other one is. -/
def annihilates : BinaryOp → Expr → Expr → Bool
  | .mul, l, r => l.isZero || r.isZero
  | .div, l, _ => l.isZero
  | .pow, _, r => r.isZero
  | _, _, _ => false

/-- A product of whole numbers with zero, a quotient of zero or a power with the exponent zero,
once the operands are optimized. -/
def Expr.annihilated : Expr → Bool
  | .binary op left right type =>
    type.is .int && annihilates op left.optimize.value right.optimize.value
  | _ => false

theorem Expr.isZero_cases {e : Expr} (h : e.isZero = true) : ∃ v t, e = .literal v t := by
  unfold isZero number? at h
  split at h
  · exact ⟨_, _, rfl⟩
  · exact ⟨_, _, rfl⟩
  · cases h

theorem eq_of_orderWhole {m n : Int} (h : Double.orderWhole m n = .eq) : m = n := by
  unfold Double.orderWhole at h
  split_ifs at h with hlt heq
  exact heq

theorem eq_of_orderMixed? {n : Int} {x : Float} (h : Double.orderMixed? n x = some .eq) :
    n * Double.unit = Double.scaled x := by
  unfold Double.orderMixed? at h
  split_ifs at h
  · cases h
  · cases h
  · exact eq_of_orderWhole (Option.some.inj h)

/-- No number is equal to two whole numbers. -/
theorem Number.eq_of_order? {x : Number} {m n : Int} (hm : x.order? (.whole m) = some .eq)
    (hn : x.order? (.whole n) = some .eq) : m = n := by
  cases x with
  | whole k =>
    have hkm := eq_of_orderWhole (Option.some.inj hm)
    have hkn := eq_of_orderWhole (Option.some.inj hn)
    exact hkm.symm.trans hkn
  | double x =>
    have hswap {k : Int} (h : (double x).order? (.whole k) = some .eq) :
        Double.orderMixed? k x = some .eq := by
      obtain ⟨o, ho, hswap⟩ := Option.map_eq_some_iff.1 h
      cases o with
      | eq => exact ho
      | lt | gt => cases hswap
    have hunit : (Double.unit : Int) ≠ 0 := by
      unfold Double.unit
      generalize 1074 = k
      exact Int.natCast_ne_zero.2 (Nat.two_pow_pos k).ne'
    have hmn := (eq_of_orderMixed? (hswap hm)).trans (eq_of_orderMixed? (hswap hn)).symm
    exact Int.eq_of_mul_eq_mul_right hunit hmn

theorem Value.order?_of_equal {v : Value} {n : Int} (h : v.equal (.int n) = true) :
    ∃ x, v.number? = some x ∧ x.order? (.whole n) = some .eq := by
  have hcompare : Value.compare? .eq v (.int n) = some true := by
    cases v with
    | string s => cases h
    | _ => exact beq_iff_eq.1 h
  obtain ⟨x, hx, hcompare⟩ := Option.bind_eq_some_iff.1 hcompare
  refine ⟨x, hx, ?_⟩
  simpa [Value.number?, comparison?] using hcompare

theorem Expr.isOne_of_isZero {e : Expr} (h : e.isZero = true) : e.isOne = false := by
  obtain ⟨v, hv, hzero⟩ := (Option.any_eq_true ..).1 h
  by_contra hone
  rw [Bool.not_eq_false, isOne, hv, Option.any_some] at hone
  obtain ⟨x, hx, hxzero⟩ := Value.order?_of_equal hzero
  obtain ⟨y, hy, hyone⟩ := Value.order?_of_equal hone
  obtain rfl : x = y := Option.some.inj (hx.symm.trans hy)
  exact absurd (Number.eq_of_order? hxzero hyone) (by decide)

end Dragon.Typed

namespace Dragon.Meaning

open Typed

variable {w : World} {store : Store} {e l r : Expr} {t : Ty} {h : List Call}

/-! ### Operations -/

theorem intArithmetic_eq_error {op : BinaryOp} {m n : Int} :
    intArithmetic op m n = .error .divisionByZero ↔ op = .div ∧ n = 0 := by
  cases op <;> simp [intArithmetic]
  split_ifs <;> simp

/-- The only operation that divides by zero is the division of whole numbers. -/
theorem operate_eq_error {op : BinaryOp} {a b : Datum}
    (hd : operate op t a b = .error .divisionByZero) :
    op = .div ∧ t = .int ∧ (∃ m, a = .int m) ∧ b = .int 0 := by
  have hmap {β γ : Type} {x : Except Fault β} {f : β → γ}
      (hx : x.map f = .error .divisionByZero) : x = .error .divisionByZero := by
    cases x with
    | error e => simpa [Except.map] using hx
    | ok b => cases hx
  unfold operate at hd
  split at hd
  next m n =>
    obtain ⟨rfl, rfl⟩ := intArithmetic_eq_error.1 (hmap hd)
    exact ⟨rfl, rfl, ⟨m, rfl⟩, rfl⟩
  next x y => cases op <;> cases hmap hd
  next =>
    split_ifs at hd
    cases hd
  next =>
    have hcompare := hmap hd
    unfold compare at hcompare
    split at hcompare
    · cases hcompare
    · cases hcompare
    · cases op <;> cases hcompare
    · unfold compareFloats at hcompare
      split at hcompare <;> cases hcompare
    · cases hcompare
  next => cases hd

/-- Where an operation divides by zero: in its left operand, in its right one, or by itself. -/
theorem operation_eq_error {op : BinaryOp} {x y : Eval Datum}
    (hrun : operation op t x y h = .error .divisionByZero) :
    x h = .error .divisionByZero ∨ ∃ a h₁, x h = .ok (a, h₁) ∧ (y h₁ = .error .divisionByZero ∨
      op = .div ∧ t = .int ∧ (∃ m, a = .int m) ∧ ∃ h₂, y h₁ = .ok (.int 0, h₂)) := by
  obtain hx | ⟨a, h₁, hx, hrun⟩ := bind_eq_error.1 hrun
  · exact .inl hx
  · refine .inr ⟨a, h₁, hx, ?_⟩
    obtain hy | ⟨b, h₂, hy, hrun⟩ := bind_eq_error.1 hrun
    · exact .inl hy
    · obtain ⟨hop, ht, ha, rfl⟩ := operate_eq_error (lift_eq_error.1 hrun)
      exact .inr ⟨hop, ht, ha, h₂, hy⟩

/-- What divides by zero is never folded. -/
theorem fold?_eq_none {op : BinaryOp}
    (hrun : operation op t (eval w store l) (eval w store r) h = .error .divisionByZero) :
    Expr.fold? op l r t = none := by
  obtain hl | ⟨a, h₁, hl, hr | ⟨rfl, rfl, ⟨m, rfl⟩, h₂, hr⟩⟩ := operation_eq_error hrun
  · simp [Expr.fold?, unknown_of_fault hl]
  · cases l.number? <;> cases op <;> simp [Expr.fold?, unknown_of_fault hr]
  · unfold Expr.fold?
    split
    next u v hu hv =>
      obtain ⟨-, ⟨_, -, rfl, ⟨⟩⟩ | ⟨_, -, -, ⟨⟩⟩⟩ := number?_cases hu hl
      obtain ⟨-, ⟨_, -, rfl, ⟨⟩⟩ | ⟨_, -, -, ⟨⟩⟩⟩ := number?_cases hv hr
      rfl
    next => rfl

theorem isZero_of_fault (he : eval w store e h = .error .divisionByZero) : e.isZero = false := by
  rw [Expr.isZero, (unknown_of_fault he).1, Option.any_none]

theorem isOne_of_fault (he : eval w store e h = .error .divisionByZero) : e.isOne = false := by
  rw [Expr.isOne, (unknown_of_fault he).1, Option.any_none]

/-- A shortcut that is not decided by zero keeps the operand that divides by zero. -/
theorem fault_shortcut {op : BinaryOp} {s : Shortcut} (hs : shortcut? op l r = some s)
    (hkept : annihilates op l r = false)
    (hrun : operation op t (eval w store l) (eval w store r) h = .error .divisionByZero) :
    eval w store (s.apply l r t) h = .error .divisionByZero := by
  obtain hl | ⟨a, h₁, hl, hr | ⟨rfl, rfl, -, h₂, hr⟩⟩ := operation_eq_error hrun
  · obtain rfl : s = .left := by
      cases op <;> simp_all [shortcut?, annihilates, isZero_of_fault hl, isOne_of_fault hl]
    exact hl
  · have hzero := isZero_of_fault hr
    have hone := isOne_of_fault hr
    have hcases : (l.isZero = true ∨ l.isOne = true) ∧ (s = .right ∨ s = .negatedRight) := by
      cases op <;> simp_all [shortcut?, annihilates]
    obtain ⟨v, hv⟩ : ∃ v, l.number? = some v := by
      obtain hany | hany := hcases.1 <;> obtain ⟨v, hv, -⟩ := (Option.any_eq_true ..).1 hany <;>
        exact ⟨v, hv⟩
    obtain ⟨rfl, -⟩ := eval_of_number? hv hl
    obtain rfl | rfl := hcases.2
    · exact hr
    · exact fault_negate hr
  · have hone : r.isOne = false := by
      by_contra hone
      exact absurd (eq_of_any_equal (Bool.not_eq_false _ ▸ hone) hr) (by decide)
    simp_all [shortcut?, annihilates]

/-- An operation that no zero decides keeps its division by zero. -/
theorem fault_combine {op : BinaryOp} (hop : op ≠ .and ∧ op ≠ .or) (ht : t.is .float = false)
    (hkept : (t.is .int && annihilates op l r) = false)
    (hrun : eval w store (.binary op l r t) h = .error .divisionByZero) :
    eval w store (Expr.combine op l r t).value h = .error .divisionByZero := by
  have hoperation := hrun
  rw [eval_binary hop] at hoperation
  rw [combine_value, fold?_eq_none hoperation]
  cases hs : taken? op l r t with
  | none => exact hrun
  | some s =>
    obtain ⟨hcond, hshortcut⟩ := Option.ite_none_right_eq_some.1 hs
    obtain rfl : t = .int := by
      obtain rfl | rfl := Ty.isNumeric_eq_true.1 (Bool.and_eq_true_iff.1 hcond).2
      · rfl
      · cases ht
    exact fault_shortcut hshortcut hkept hoperation

/-- An operation that a zero decides is a literal once it is optimized. -/
theorem combine_of_annihilates {op : BinaryOp} (ht : t.isNumeric = true)
    (hzero : annihilates op l r = true) :
    ∃ v t', (Expr.combine op l r t).value = .literal v t' := by
  rw [combine_value]
  cases hfold : Expr.fold? op l r t with
  | some folded =>
    obtain ⟨v, t', hv, -⟩ := Expr.fold?_cases hfold []
    exact ⟨v, t', hv⟩
  | none =>
    have htaken : taken? op l r t = shortcut? op l r := by simp [taken?, hfold, ht]
    have hl (hlzero : l.isZero = true) := Expr.isOne_of_isZero hlzero
    have hr (hrzero : r.isZero = true) := Expr.isOne_of_isZero hrzero
    obtain ⟨s, hs, hcases⟩ : ∃ s, shortcut? op l r = some s ∧
        (s = .left ∧ l.isZero = true ∨ s = .right ∧ r.isZero = true ∨ s = .one) := by
      cases op with
      | mul =>
        obtain hlzero | hrzero := Bool.or_eq_true_iff.1 hzero
        · cases hrzero : r.isZero <;> cases hrone : r.isOne <;>
            simp_all [shortcut?]
        · cases hlone : l.isOne <;> simp_all [shortcut?]
      | div => cases hrone : r.isOne <;> simp_all [shortcut?, annihilates]
      | pow => simp_all [shortcut?, annihilates]
      | _ => cases hzero
    rw [htaken, hs]
    obtain ⟨rfl, hlzero⟩ | ⟨rfl, hrzero⟩ | rfl := hcases
    · exact Expr.isZero_cases hlzero
    · exact Expr.isZero_cases hrzero
    · exact ⟨_, _, rfl⟩

theorem optimize_of_annihilated (he : e.annihilated = true) :
    ∃ v t, e.optimize.value = .literal v t := by
  cases e with
  | binary op l r t =>
    obtain ⟨ht, hzero⟩ := Bool.and_eq_true_iff.1 he
    have hnumeric : t.isNumeric = true := by simp [Ty.isNumeric, ht]
    cases op
    case mul | div | pow => exact combine_of_annihilates hnumeric hzero
    all_goals cases hzero
  | _ => cases he

/-! ### Expressions -/

/-- No operation among some expressions that a zero decides divides by zero. -/
def Spared (w : World) (store : Store) (h : List Call) (es : List Expr) : Prop :=
  ∀ f ∈ es, f.annihilated = true → eval w store f h ≠ .error .divisionByZero

theorem Spared.append {es fs : List Expr} (hs : Spared w store h (es ++ fs)) :
    Spared w store h es ∧ Spared w store h fs :=
  List.forall_mem_append.1 hs

theorem tracks_of_fault (he : e.plain = true)
    (hfault : eval w store e h = .error .divisionByZero →
      eval w store e.optimize.value h = .error .divisionByZero) :
    Tracks h (eval w store e) (eval w store e.optimize.value) where
  result a h₁ ha := by
    obtain ⟨rfl, -⟩ := unharmed_of_plain w store e he h a h₁ ha
    exact ⟨rfl, refines_optimize he h₁ _ ha⟩
  fault := hfault

/-- An expression that is left as it is. -/
theorem tracks_self (he : e.plain = true) (hsame : e.optimize.value = e) :
    Tracks h (eval w store e) (eval w store e.optimize.value) :=
  tracks_of_fault he fun hrun => by rwa [hsame]

mutual

/-- Where nothing is annihilated, divisions by zero stay. -/
theorem tracks_optimize (e : Expr) (he : e.plain = true) (hs : Spared w store h e.within) :
    Tracks h (eval w store e) (eval w store e.optimize.value) := by
  cases e with
  | unary op e t =>
    have hs := (List.forall_mem_cons.1 hs).2
    refine tracks_of_fault he fun hrun => fault_applyUnary op ?_
    exact (tracks_optimize e he hs).fault (eval_unary_eq_error.1 hrun)
  | binary op l r t =>
    have hplain := he
    simp only [Expr.plain, Bool.and_eq_true, Bool.not_eq_true'] at hplain
    obtain ⟨⟨ht, hl⟩, hr⟩ := hplain
    obtain ⟨hself, hs⟩ := List.forall_mem_cons.1 hs
    have hl := tracks_optimize l hl (Spared.append hs).1
    have hr := tracks_optimize r hr (Spared.append hs).2
    refine tracks_of_fault he fun hrun => ?_
    cases op
    case and =>
      have hoperands := (hl.shortCircuit false hr).fault hrun
      exact fault_connective hoperands hoperands
    case or =>
      have hoperands := (hl.shortCircuit true hr).fault hrun
      exact fault_connective hoperands hoperands
    all_goals
      have hoperands := (hl.bind fun a => hr.bind fun b => .lift (operate _ t a b)).fault hrun
      refine fault_combine (by simp) ht ?_ hoperands
      by_contra hzero
      exact hself (Bool.not_eq_false _ ▸ hzero) hrun
  | ternary c l r t =>
    have hplain := he
    simp only [Expr.plain, Bool.and_eq_true] at hplain
    have hs := (List.forall_mem_cons.1 hs).2
    obtain ⟨hs, hsr⟩ := Spared.append hs
    have hc := tracks_optimize c hplain.1.1 (Spared.append hs).1
    have hl := tracks_optimize l hplain.1.2 (Spared.append hs).2
    have hr := tracks_optimize r hplain.2 hsr
    exact tracks_of_fault he fun hrun => fault_choose ((hc.choice hl hr).fault hrun)
  | coalesce o f t =>
    have hplain := he
    simp only [Expr.plain, Bool.and_eq_true] at hplain
    have hs := (List.forall_mem_cons.1 hs).2
    have ho := tracks_optimize o hplain.1 (Spared.append hs).1
    have hf := tracks_optimize f hplain.2 (Spared.append hs).2
    exact tracks_of_fault he fun hrun => fault_orElse ((ho.content hf).fault hrun)
  | list es t =>
    have hes := tracks_optimizeAll es he (List.forall_mem_cons.1 hs).2
    exact hes.bind fun ds => .pure (Datum.list ds)
  | subscript c i t =>
    have hplain := he
    simp only [Expr.plain, Bool.and_eq_true] at hplain
    have hs := (List.forall_mem_cons.1 hs).2
    have hc := tracks_optimize c hplain.1 (Spared.append hs).1
    have hi := tracks_optimize i hplain.2 (Spared.append hs).2
    exact hc.bind fun c => hi.bind fun i => .lift (elementAt c i)
  | template parts t =>
    have hparts := tracks_optimizeParts parts he (List.forall_mem_cons.1 hs).2
    exact hparts.bind fun s => .pure (Datum.string s)
  | call | construct => cases he
  | foreignUnary | foreignBinary | misplaced => exact .lift (.error .mismatch)
  | _ => exact tracks_self he rfl

theorem tracks_optimizeAll (es : List Expr) (hes : plainAll es = true)
    (hs : Spared w store h (withinAll es)) :
    Tracks h (evalAll w store es) (evalAll w store (optimizeAll es).value) := by
  cases es with
  | nil => exact .pure _
  | cons e rest =>
    simp only [plainAll, Bool.and_eq_true] at hes
    have he := tracks_optimize e hes.1 (Spared.append hs).1
    have hrest := tracks_optimizeAll rest hes.2 (Spared.append hs).2
    exact he.bind fun d => hrest.bind fun ds => .pure (d :: ds)

theorem tracks_optimizeParts (parts : List Part) (hparts : plainParts parts = true)
    (hs : Spared w store h (withinParts parts)) :
    Tracks h (evalParts w store parts) (evalParts w store (optimizeParts parts).value) := by
  match parts with
  | [] => exact .pure _
  | .text s :: rest => exact (tracks_optimizeParts rest hparts hs).bind fun t => .pure (s ++ t)
  | .hole e :: rest =>
    simp only [plainParts, Bool.and_eq_true] at hparts
    have he := tracks_optimize e hparts.1 (Spared.append hs).1
    have hrest := tracks_optimizeParts rest hparts.2 (Spared.append hs).2
    exact he.bind fun d => hrest.bind fun t => .pure (w.text d ++ t)

end

/-- Optimizing an expression and the expressions in it keeps every division by zero that they come
to, exactly if none of those that a zero decides comes to one: no product with zero, no quotient of
zero and no power with the exponent zero. -/
theorem divisionByZero_kept_iff (w : World) (store : Store) (h : List Call) {e : Expr}
    (he : e.plain = true) :
    (∀ f ∈ e.within, eval w store f h = .error .divisionByZero →
      eval w store f.optimize.value h = .error .divisionByZero) ↔
    ∀ f ∈ e.within, f.annihilated = true → eval w store f h ≠ .error .divisionByZero := by
  constructor
  · intro hkept f hf hzero hrun
    obtain ⟨v, t, hliteral⟩ := optimize_of_annihilated hzero
    exact eval_literal_ne v t (hliteral ▸ hkept f hf hrun)
  · intro hspared f hf
    obtain ⟨hplain, hsubset⟩ := Expr.plainIn_within e he f hf
    exact (tracks_optimize f hplain fun g hg => hspared g (hsubset hg)).fault

section Quotients

/-- What a program of one statement puts out. -/
def printed (source : String) : Expr :=
  match analyzed source with
  | [.print e] => e
  | _ => .emptyList .int

/-- No variable has a value. -/
def emptyStore : Store := fun _ => none

def dividesByZero : Except Fault (Datum × List Call) → Bool
  | .error f => f == .divisionByZero
  | .ok _ => false

theorem eq_of_dividesByZero {x : Except Fault (Datum × List Call)} (hx : dividesByZero x = true) :
    x = .error .divisionByZero := by
  cases x with
  | error f => rw [beq_iff_eq.1 hx]
  | ok p => cases hx

/-- A factor of a product keeps its division by zero, since nothing there is decided by a zero. -/
theorem divisionByZero_kept_iff_factor :
    let e := printed "proclaim 2 * (7 / 0) + 0;"
    eval twoWorld emptyStore e [] = .error .divisionByZero ∧
      eval twoWorld emptyStore e.optimize.value [] = .error .divisionByZero := by
  intro e
  have hrun : eval twoWorld emptyStore e [] = .error .divisionByZero :=
    eq_of_dividesByZero (by decide +kernel)
  have hspared : e.within.all (fun f => !f.annihilated) = true := by decide +kernel
  refine ⟨hrun, (divisionByZero_kept_iff twoWorld emptyStore [] (by decide +kernel)).2 ?_ e
    e.mem_within_self hrun⟩
  intro f hf hzero
  simpa [hzero] using List.all_eq_true.1 hspared f hf

/-- Zero divided by zero divides by zero, but not any more once it is optimized. -/
theorem divisionByZero_lost :
    let e := printed "proclaim 0 / 0;"
    e.plain = true ∧ eval twoWorld emptyStore e [] = .error .divisionByZero ∧
      eval twoWorld emptyStore e.optimize.value [] = .ok (.int 0, []) := by
  intro e
  have hopt : (eval twoWorld emptyStore e.optimize.value []).toOption.any
      (fun r => r.1.isInt 0 && r.2.isEmpty) = true := by decide +kernel
  obtain ⟨⟨d, calls⟩, hrun, htest⟩ := exists_of_any hopt
  obtain ⟨hd, hcalls⟩ := Bool.and_eq_true_iff.1 htest
  obtain rfl : calls = [] := List.isEmpty_iff.1 hcalls
  obtain rfl : d = .int 0 := Datum.eq_int hd
  exact ⟨by decide +kernel, eq_of_dividesByZero (by decide +kernel), hrun⟩

end Quotients

end Dragon.Meaning
