import Dragon.Proofs.Meaning.Expr
import Dragon.Typed.Simplify
import Mathlib.Tactic.SplitIfs

/-!
# Folding computes what running would

Wherever an operation on two literals is folded and would have a result at run time, the literal put
in its place stands for that result.
-/
namespace Dragon.Meaning

open Typed

/-! ### Whole numbers -/

theorem neg_one_pow_eq (n : Nat) : (-1 : Int) ^ n = if (n : Int) % 2 = 0 then 1 else -1 := by
  induction n with
  | zero => rfl
  | succ n ih =>
    rw [Int.pow_succ, ih]
    split_ifs <;> omega

theorem intPower?_eq_some {a b r : Int} (h : intPower? a b = some r) :
    0 ≤ b ∧ a ^ b.toNat = r := by
  unfold intPower? at h
  split_ifs at h with hneg hzero hb hone hminus heven hlarge
  all_goals simp only [beq_iff_eq, Option.some.injEq] at *
  all_goals refine ⟨by omega, ?_⟩
  · subst hzero hb h
    rfl
  · have hpos : b.toNat ≠ 0 := by omega
    subst hzero h
    exact Int.zero_pow hpos
  · subst hone h
    exact Int.one_pow
  iterate 2
    have hcast : (b.toNat : Int) = b := by omega
    subst hminus
    rw [neg_one_pow_eq, hcast]
    simp [heven, h]
  · exact h

/-- Folded whole numbers are those of run time. -/
theorem intArithmetic_of_foldInt? {op : BinaryOp} {a b r : Int} (h : foldInt? op a b = some r) :
    intArithmetic op a b = .ok r := by
  have hr : intResult? op a b = some r := by
    unfold foldInt? at h
    split at h
    · split_ifs at h
      simp_all
    · simp at h
  cases op <;> simp only [intResult?, reduceCtorEq, Option.some.injEq] at hr
  case add | sub | mul => simp [intArithmetic, hr]
  case div =>
    split_ifs at hr with hb
    simp only [beq_iff_eq] at hb
    simp_all [intArithmetic]
  case pow =>
    obtain ⟨hb, hp⟩ := intPower?_eq_some hr
    have hneg : ¬ b < 0 := by omega
    simp [intArithmetic, hneg, hp]

theorem same_int (a b : Int) :
    (Datum.int a).same (.int b) = (some (Double.orderWhole a b) == some Ordering.eq) := by
  unfold Double.orderWhole
  simp only [Datum.same]
  split_ifs <;> simp <;> omega

theorem compareInts_of_comparison? {op : BinaryOp} {a b : Int} {r s : Bool}
    (hr : comparison? op (some (Double.orderWhole a b)) = some r)
    (hs : compareInts op a b = .ok s) : s = r := by
  unfold Double.orderWhole at hr
  cases op <;> simp only [comparison?, compareInts, Option.some.injEq, reduceCtorEq,
    Except.ok.injEq] at hr hs
  all_goals subst hr hs
  all_goals split_ifs <;> simp <;> omega

/-! ### Doubles -/

theorem floatArithmetic_of_foldFloat? {op : BinaryOp} {a b r : Float}
    (h : foldFloat? op a b = some r) : floatArithmetic op a b = .ok r := by
  obtain ⟨x, hx, hf⟩ := Option.bind_eq_some_iff.1 h
  have hxr : x = r := by
    unfold finite? at hf
    split_ifs at hf
    simpa using hf
  subst hxr
  cases op <;> simp only [floatResult?, reduceCtorEq, Option.some.injEq] at hx
  case add | sub | mul | pow => simp [floatArithmetic, hx]
  case div =>
    split_ifs at hx
    simp_all [floatArithmetic]

/-! ### Literals -/

variable {w : World} {store : Store} {l r : Expr} {a b d : Datum} {h h₁ h₂ : List Call}

theorem eval_literal {v : Value} {t : Ty} {p : Datum × List Call} :
    eval w store (.literal v t) h = .ok p ↔ ∃ d, literal? v t = some d ∧ p = (d, h) := by
  unfold eval
  cases literal? v t with
  | none => simp [fault_ne_ok]
  | some d => simp [pure_eq_ok]

theorem number?_cases {v : Value} (hv : l.number? = some v)
    (hl : eval w store l h = .ok (a, h₁)) :
    h₁ = h ∧ ((∃ n, l = .literal v .int ∧ v = .int n ∧ a = .int n) ∨
      ∃ x, l = .literal v .float ∧ v = .float x ∧ a = .float x) := by
  unfold Expr.number? at hv
  split at hv <;> simp only [Option.some.injEq, reduceCtorEq] at hv
  all_goals
    subst hv
    obtain ⟨d, hd, hp⟩ := eval_literal.1 hl
    cases hp
    refine ⟨rfl, ?_⟩
    unfold literal? at hd
    split at hd <;> simp_all

/-- The datum of a number that a literal has. -/
def numeral : Value → Option Datum
  | .int n => some (.int n)
  | .float x => some (.float x)
  | _ => none

theorem eval_of_number? {v : Value} (hv : l.number? = some v)
    (hl : eval w store l h = .ok (a, h₁)) : h₁ = h ∧ numeral v = some a := by
  obtain ⟨rfl, ⟨n, -, rfl, rfl⟩ | ⟨x, -, rfl, rfl⟩⟩ := number?_cases hv hl <;> exact ⟨rfl, rfl⟩

theorem eval_of_boolean? {v : Value} (hv : l.boolean? = some v)
    (hl : eval w store l h = .ok (a, h₁)) : h₁ = h ∧ ∃ c, v = .bool c ∧ a = .bool c := by
  unfold Expr.boolean? at hv
  split at hv
  · simp only [Option.some.injEq] at hv
    subst hv
    obtain ⟨d, hd, hp⟩ := eval_literal.1 hl
    cases hp
    refine ⟨rfl, ?_⟩
    unfold literal? at hd
    split at hd <;> simp_all
  · simp at hv

theorem eval_truth (c : Bool) : eval w store (Expr.truth c) h = .ok (.bool c, h) :=
  eval_literal.2 ⟨_, rfl, rfl⟩

/-! ### Operations on literals -/

/-- Folded comparisons are those of run time, with mixed numbers too. -/
theorem compare_numerals {op : BinaryOp} {u v : Value} {s c : Bool} (ha : numeral u = some a)
    (hb : numeral v = some b) (hs : Value.compare? op u v = some s)
    (hc : compare op a b = .ok c) : c = s := by
  cases u <;> simp only [numeral, reduceCtorEq, Option.some.injEq] at ha <;> subst ha <;>
    cases v <;> simp only [numeral, reduceCtorEq, Option.some.injEq] at hb <;> subst hb <;>
    simp only [Value.compare?, Value.number?, Option.bind_eq_bind, Option.bind_some,
      Number.order?] at hs
  case int.int m n =>
    cases op
    case eq | ne =>
      simp only [comparison?, Option.some.injEq] at hs
      simp only [compare, same_int, Except.ok.injEq] at hc
      simp [← hs, ← hc, bne]
    all_goals exact compareInts_of_comparison? hs hc
  case float.float x y =>
    cases op
    case eq | ne =>
      simp only [comparison?, Option.some.injEq] at hs
      simp only [compare, Datum.same, Except.ok.injEq] at hc
      simp [← hs, ← hc, bne]
    all_goals simp_all [compare, compareFloats]
  -- A whole number and a double are only compared for equality.
  case int.float m y =>
    cases op <;> simp only [compare, reduceCtorEq, Except.ok.injEq, Datum.same] at hc
    all_goals
      simp only [comparison?, Option.some.injEq] at hs
      simp [← hs, ← hc, bne]
  case float.int x n =>
    cases op <;> simp only [compare, reduceCtorEq, Except.ok.injEq, Datum.same] at hc
    all_goals
      simp only [comparison?, Option.some.injEq] at hs
      rw [← hs, ← hc]
      cases Double.orderMixed? n x with
      | none => rfl
      | some o => cases o <;> rfl

/-- An operation with a result computes a number, joins strings or compares. -/
theorem operate_cases {op : BinaryOp} {type : Ty} (h : operate op type a b = .ok d) :
    (∃ m n k, type = .int ∧ a = .int m ∧ b = .int n ∧ intArithmetic op m n = .ok k ∧ d = .int k) ∨
    (∃ x y z, type = .float ∧ a = .float x ∧ b = .float y ∧ floatArithmetic op x y = .ok z ∧
      d = .float z) ∨
    (∃ s t, type = .string ∧ a = .string s ∧ b = .string t ∧ op = .add ∧ d = .string (s ++ t)) ∨
    (∃ c, type = .bool ∧ compare op a b = .ok c ∧ d = .bool c) := by
  unfold operate at h
  split at h
  next m n =>
    cases hk : intArithmetic op m n <;> simp_all [Except.map]
  next x y =>
    cases hz : floatArithmetic op x y <;> simp_all [Except.map]
  next s t =>
    split_ifs at h
    simp_all
  next =>
    cases hc : compare op a b <;> simp_all [Except.map]
  next => simp at h

theorem literal?_of_arithmetic? {op : BinaryOp} {type : Ty} {u v r : Value}
    (ha : numeral u = some a) (hb : numeral v = some b) (htype : type.is .bool = false)
    (hr : Value.arithmetic? op (type.is .int) u v = some r) (hd : operate op type a b = .ok d) :
    literal? r type = some d := by
  cases u <;> simp only [numeral, reduceCtorEq, Option.some.injEq] at ha <;> subst ha <;>
    cases v <;> simp only [numeral, reduceCtorEq, Option.some.injEq] at hb <;> subst hb <;>
    simp only [Value.arithmetic?, Value.number?, Option.bind_eq_bind, Option.bind_some,
      Option.map_eq_some_iff] at hr <;>
    obtain ⟨x, hx, rfl⟩ := hr
  all_goals
    obtain ⟨m, n, k, rfl, hm, hn, hk, rfl⟩ | ⟨x, y, z, rfl, hx', hy, hz, rfl⟩ |
      ⟨s, t, rfl, hs, ht, hop, rfl⟩ | ⟨c, rfl, hc, rfl⟩ := operate_cases hd
    all_goals simp_all [Ty.is, Number.arithmetic?, Number.toFloat?]
  case int.int =>
    obtain ⟨j, hj, rfl⟩ := hx
    rw [intArithmetic_of_foldInt? hj] at hk
    simp_all [Value.ofNumber, literal?]
  case float.float =>
    obtain ⟨j, hj, rfl⟩ := hx
    rw [floatArithmetic_of_foldFloat? hj] at hz
    simp_all [Value.ofNumber, literal?]

theorem equal_bools (c e : Bool) : (Value.bool c).equal (.bool e) = (c == e) := by
  cases c <;> cases e <;> rfl

theorem operate_bools {op : BinaryOp} {type : Ty} {c e : Bool}
    (h : operate op type (.bool c) (.bool e) = .ok d) :
    (op = .eq ∧ d = .bool (c == e)) ∨ (op = .ne ∧ d = .bool !(c == e)) := by
  obtain ⟨m, n, k, rfl, hm, _⟩ | ⟨x, y, z, rfl, hx, _⟩ | ⟨s, t, rfl, hs, _⟩ | ⟨r, rfl, hr, rfl⟩ :=
    operate_cases h
  all_goals simp_all
  cases op <;> simp_all [compare, Datum.same]

/-- What a fold puts in the place of an operation evaluates to the result of the operation, and
nothing was called for its operands. -/
theorem eval_of_fold? {op : BinaryOp} {type : Ty} {folded : Logged Expr}
    (hf : Expr.fold? op l r type = some folded) (hl : eval w store l h = .ok (a, h₁))
    (hr : eval w store r h₁ = .ok (b, h₂)) (hd : operate op type a b = .ok d) :
    h₁ = h ∧ h₂ = h₁ ∧ ∀ h', eval w store folded.value h' = .ok (d, h') := by
  unfold Expr.fold? at hf
  split at hf
  next u v hu hv =>
    obtain ⟨rfl, ha⟩ := eval_of_number? hu hl
    obtain ⟨rfl, hb⟩ := eval_of_number? hv hr
    refine ⟨rfl, rfl, fun h' => ?_⟩
    split_ifs at hf with htype
    · obtain ⟨s, hs, rfl⟩ := Option.map_eq_some_iff.1 hf
      have hbool : type = .bool := by
        unfold Ty.is at htype
        split at htype <;> simp_all
      subst hbool
      obtain ⟨c, hc, rfl⟩ : ∃ c, compare op a b = .ok c ∧ d = .bool c := by
        simpa using operate_cases hd
      rw [compare_numerals ha hb hs hc]
      exact eval_truth s
    · obtain ⟨s, hs, rfl⟩ := Option.map_eq_some_iff.1 hf
      have hlit := literal?_of_arithmetic? ha hb (by simpa using htype) hs hd
      exact eval_literal.2 ⟨d, hlit, rfl⟩
  next =>
    split at hf
    all_goals try simp only [reduceCtorEq] at hf
    all_goals
      simp only [Option.some.injEq] at hf
      subst hf
      obtain ⟨rfl, c, rfl, rfl⟩ := eval_of_boolean? ‹_› hl
      obtain ⟨rfl, e, rfl, rfl⟩ := eval_of_boolean? ‹_› hr
      refine ⟨rfl, rfl, fun h' => ?_⟩
      have hd' := operate_bools hd
      simp_all [eval_truth, equal_bools]

end Dragon.Meaning
