import Dragon.Proofs.Check.Exact
import Dragon.Proofs.Optimize.Fold
import Dragon.Proofs.Optimize.Types
import Mathlib.Data.Rat.Floor

/-!
# Whole numbers in optimized programs

Folding gives the exact result of an operation or leaves it alone, and it folds every operation on
whole numbers whose result a script can hold. Nothing else makes numbers but negation, which keeps
their size, so whole numbers stay within bounds wherever expressions are simplified. An operation
that is not folded may still lose an operand that does not matter; that is no computation and is not
spoken of here.
-/
namespace Dragon

namespace Typed

/-! ### Exact results -/

/-- A number cut off toward zero. -/
def truncated (q : ℚ) : ℤ := if 0 ≤ q then ⌊q⌋ else ⌈q⌉

/-- The exact result of an operation on whole numbers. There is none by zero, and no power with a
negative exponent. -/
def ExactResult : BinaryOp → ℤ → ℤ → ℤ → Prop
  | .add, a, b, r => r = a + b
  | .sub, a, b, r => r = a - b
  | .mul, a, b, r => r = a * b
  | .div, a, b, r => b ≠ 0 ∧ r = truncated (a / b)
  | .pow, a, b, r => 0 ≤ b ∧ r = a ^ b.toNat
  | _, _, _, _ => False

theorem truncated_neg (q : ℚ) : truncated (-q) = -truncated q := by
  unfold truncated
  obtain hneg | rfl | hpos := lt_trichotomy q 0
  · rw [if_pos (by linarith), if_neg (by linarith), Int.floor_neg]
  · simp
  · rw [if_neg (by linarith), if_pos (by linarith), Int.ceil_neg]

theorem truncated_natCast_div (m n : ℕ) : truncated ((m : ℚ) / n) = (m / n : ℕ) := by
  have hnonneg : (0 : ℚ) ≤ (m : ℚ) / n := by positivity
  rw [truncated, if_pos hnonneg, Rat.floor_natCast_div_natCast]
  norm_cast

/-- Both sides change sign with either operand, so only natural numbers are left to look at. -/
theorem tdiv_eq_truncated (a b : ℤ) : a.tdiv b = truncated ((a : ℚ) / b) := by
  obtain ⟨m, rfl | rfl⟩ := Int.eq_nat_or_neg a <;> obtain ⟨n, rfl | rfl⟩ := Int.eq_nat_or_neg b
  all_goals
    simp only [Int.neg_tdiv, Int.tdiv_neg, Int.cast_neg, Int.cast_natCast, neg_div, div_neg,
      truncated_neg, truncated_natCast_div, neg_neg]
    rfl

variable {op : BinaryOp} {a b n : ℤ}

/-- Whatever grows has grown too far by the sixty-fifth power. -/
theorem largestExact_lt_pow (ha : 2 ≤ a.natAbs) {k : ℕ} (hk : 64 < k) :
    largestExact < (a ^ k).natAbs := by
  calc largestExact < 2 ^ 64 := by decide
    _ ≤ 2 ^ k := Nat.pow_le_pow_right (by decide) hk.le
    _ ≤ a.natAbs ^ k := Nat.pow_le_pow_left ha k
    _ = (a ^ k).natAbs := (Int.natAbs_pow a k).symm

theorem intPower?_of_le (hb : 0 ≤ b) (hn : (a ^ b.toNat).natAbs ≤ largestExact) :
    intPower? a b = some (a ^ b.toNat) := by
  by_cases hlarge : 2 ≤ a.natAbs ∧ 64 < b
  · have h := largestExact_lt_pow hlarge.1 (k := b.toNat) (by omega)
    omega
  · cases hp : intPower? a b with
    | some r => rw [(Meaning.intPower?_eq_some hp).2]
    | none =>
      unfold intPower? at hp
      split_ifs at hp <;> simp_all <;> omega

/-- What is folded is the exact result. -/
theorem exactResult_of_intResult? (h : intResult? op a b = some n) : ExactResult op a b n := by
  cases op <;> simp only [intResult?, reduceCtorEq, Option.some.injEq] at h
  case add | sub | mul => exact h.symm
  case div =>
    split_ifs at h with hb
    cases h
    exact ⟨by simpa using hb, tdiv_eq_truncated a b⟩
  case pow =>
    obtain ⟨hb, hn⟩ := Meaning.intPower?_eq_some h
    exact ⟨hb, hn.symm⟩

/-- An exact result within bounds is folded. -/
theorem intResult?_of_exactResult (h : ExactResult op a b n) (hn : n.natAbs ≤ largestExact) :
    intResult? op a b = some n := by
  cases op <;> simp only [ExactResult] at h
  case add | sub | mul => rw [h, intResult?]
  case div =>
    obtain ⟨hb, rfl⟩ := h
    have hzero : (b == 0) = false := by simpa using hb
    rw [intResult?, hzero, ← tdiv_eq_truncated]
    rfl
  case pow =>
    obtain ⟨hb, rfl⟩ := h
    exact intPower?_of_le hb hn

/-- Operations are folded exactly when a script can hold their result. -/
theorem foldInt?_eq_some_iff :
    foldInt? op a b = some n ↔ ExactResult op a b n ∧ n.natAbs ≤ largestExact := by
  constructor
  · intro h
    unfold foldInt? at h
    split at h
    next r hr =>
      split_ifs at h with hbound
      cases h
      exact ⟨exactResult_of_intResult? hr, hbound⟩
    next => cases h
  · rintro ⟨hresult, hbound⟩
    rw [foldInt?, intResult?_of_exactResult hresult hbound]
    exact if_pos hbound

/-! ### Expressions -/

/-- Computing takes whole numbers that scripts hold exactly to such numbers. -/
theorem isExact_of_computed {operands : List Expr} {v : Value}
    (hoperands : ∀ o ∈ operands, o.ExactHere) (h : Expr.Computed operands v) : v.IsExact := by
  cases h with
  | truth b =>
    intro n hn
    cases hn
  | one isWhole =>
    cases isWhole with
    | false =>
      intro n hn
      cases hn
    | true =>
      rintro n ⟨⟩
      decide
  | @negative u v t h hv =>
    have hu : u.IsExact := hoperands _ h
    cases u with
    | int n =>
      cases hv
      rintro m ⟨⟩
      rw [Int.natAbs_neg]
      exact hu n rfl
    | float x =>
      cases hv
      intro n hn
      cases hn
    | bool b =>
      cases b <;> cases hv <;> rintro n ⟨⟩ <;> decide
    | string s => cases hv
  | @result op isWhole a b v h =>
    simp only [Value.arithmetic?, Option.bind_eq_bind, Option.bind_eq_some_iff,
      Option.map_eq_some_iff] at h
    obtain ⟨x, -, y, -, r, hr, rfl⟩ := h
    cases r with
    | double z =>
      intro n hn
      cases hn
    | whole m =>
      rintro n ⟨⟩
      unfold Number.arithmetic? at hr
      split at hr
      · split at hr
        · obtain ⟨k, hk, hkm⟩ := Option.map_eq_some_iff.1 hr
          cases hkm
          exact (foldInt?_eq_some_iff.1 hk).2
        · obtain ⟨z, -, hz⟩ := Option.map_eq_some_iff.1 hr
          cases hz
      · simp [Option.bind_eq_bind, Option.bind_eq_some_iff] at hr

theorem Expr.exact_optimize (e : Expr) (he : e.Exact) : e.optimize.value.Exact :=
  each_optimize_of_leaf (fun e he => by cases e <;> exact he) (fun _ _ _ => trivial)
    (fun _ _ _ hoperands hv => isExact_of_computed hoperands hv) he

/-! ### Folded operations -/

namespace Expr

variable {e l r : Expr} {v : Value}

/-- The literal of a whole number. -/
def whole (n : ℤ) : Expr := literal (.int n) .int

theorem number?_eq_some_iff (htype : e.type = .int) (he : e.Fits) :
    e.number? = some v ↔ ∃ n, v = .int n ∧ e = whole n := by
  constructor
  · intro h
    obtain ⟨t, rfl, -⟩ := number?_eq_some h
    obtain rfl : t = .int := htype
    cases v with
    | int n => exact ⟨n, rfl, rfl⟩
    | float x | bool b | string s => cases he
  · rintro ⟨n, rfl, rfl⟩
    rfl

/-- What is folded to a whole number has whole numbers for operands, and is their exact result. -/
theorem fold?_eq_some_of_int {folded : Logged Expr} (hfits : BinaryFits op l.type r.type .int)
    (hl : l.Fits) (hr : r.Fits) (hfold : fold? op l r .int = some folded) :
    ∃ a b n, l = whole a ∧ r = whole b ∧ folded.value = whole n ∧ ExactResult op a b n ∧
      n.natAbs ≤ largestExact := by
  obtain ⟨hleft, hright⟩ := hfits.operands (by simp)
  unfold fold? at hfold
  split at hfold
  next u v hu hv =>
    obtain ⟨a, rfl, rfl⟩ := (number?_eq_some_iff hleft hl).1 hu
    obtain ⟨b, rfl, rfl⟩ := (number?_eq_some_iff hright hr).1 hv
    obtain ⟨w, hw, rfl⟩ := Option.map_eq_some_iff.1 hfold
    obtain ⟨n, hn, rfl⟩ := Option.map_eq_some_iff.1 ((arithmetic?_whole op a b).symm.trans hw)
    exact ⟨a, b, n, rfl, rfl, rfl, foldInt?_eq_some_iff.1 hn⟩
  next =>
    -- Truth values are only compared, and a comparison has no number for its type.
    split at hfold
    · cases hfits
    · cases hfits
    · cases hfold

/-- Every operation on whole numbers with a result that a script can hold is folded to it. -/
theorem applyBinary_whole {a b n : ℤ} (h : ExactResult op a b n) (hn : n.natAbs ≤ largestExact) :
    (applyBinary op (whole a) (whole b) .int).value = whole n := by
  have hfold : fold? op (whole a) (whole b) .int
      = some (Logged.note (.folded (.int a) op (.int b) (.int n)) (whole n)) := by
    show (Value.arithmetic? op true (.int a) (.int b)).map _ = _
    rw [arithmetic?_whole, foldInt?_eq_some_iff.2 ⟨h, hn⟩]
    rfl
  cases op with
  | add | sub | mul | div | pow =>
    simp only [applyBinary, combine, hfold]
    rfl
  | and | or | eq | ne | lt | le | gt | ge => exact h.elim

end Expr

end Typed

open Typed

/-! ### Accepted programs -/

/-- An accepted program has exact literals only, and still has when it is optimized. -/
theorem exact_exprs_of_accepted {tree : Tree.Program} {program : Program}
    (haccepted : (Checked.ofTree tree).result = .ok program) (optimize : Bool) :
    ∀ e ∈ (if optimize then program.optimize.value else program).exprs, e.Exact :=
  each_of_accepted (fun _ _ h => h.exact) Expr.exact_optimize haccepted optimize

theorem natAbs_le_largestExact {n : ℤ} : n.natAbs ≤ largestExact ↔ |n| ≤ 2 ^ 53 - 1 := by
  have hlargest : largestExact = 2 ^ 53 - 1 := by decide
  rw [hlargest, Int.abs_eq_natAbs]
  omega

/-- Literals of whole numbers in an accepted program, and in what it is optimized to, are at most
`2 ^ 53 - 1` in size. An operation of the program is folded to a whole number only if that is the
exact result for its operands, and always if that is within the same bounds. -/
theorem wholeNumbers_exact_of_accepted {tree : Tree.Program} {program : Program}
    (haccepted : (Checked.ofTree tree).result = .ok program) :
    (∀ (optimize : Bool) v t,
      Expr.literal v t ∈ (if optimize then program.optimize.value else program).exprs →
        (t = .int ↔ ∃ n, v = .int n) ∧ ∀ n, v = .int n → |n| ≤ 2 ^ 53 - 1) ∧
    ∀ op l r, Expr.binary op l r .int ∈ program.exprs →
      (∀ folded, Expr.fold? op l.optimize.value r.optimize.value .int = some folded →
        ∃ a b n, l.optimize.value = .whole a ∧ r.optimize.value = .whole b ∧
          folded.value = .whole n ∧ ExactResult op a b n) ∧
      ∀ a b n, l.optimize.value = .whole a → r.optimize.value = .whole b →
        ExactResult op a b n → |n| ≤ 2 ^ 53 - 1 →
          (Expr.binary op l r .int).optimize.value = .whole n := by
  constructor
  · intro optimize v t hliteral
    have hbound := (exact_exprs_of_accepted haccepted optimize _ hliteral).here
    have htype : t = v.type := (coherent_of_accepted haccepted optimize _ hliteral).here
    refine ⟨?_, fun n hn => natAbs_le_largestExact.1 (hbound n hn)⟩
    rw [htype]
    cases v <;> simp [Value.type]
  · intro op l r hbinary
    obtain ⟨hfits, hl, hr⟩ :=
      Expr.each_binary.1 (coherent_of_accepted haccepted false _ hbinary)
    obtain ⟨hl', hleft⟩ := l.replaces_optimize hl
    obtain ⟨hr', hright⟩ := r.replaces_optimize hr
    have hfits' : BinaryFits op l.optimize.value.type r.optimize.value.type .int :=
      BinaryFits.mono hfits hleft hright
    constructor
    · intro folded hfold
      obtain ⟨a, b, n, hleft, hright, hvalue, hresult, -⟩ :=
        Expr.fold?_eq_some_of_int hfits' hl'.here hr'.here hfold
      exact ⟨a, b, n, hleft, hright, hvalue, hresult⟩
    · intro a b n hleft hright hresult hbound
      show (Expr.applyBinary op l.optimize.value r.optimize.value .int).value = _
      rw [hleft, hright]
      exact Expr.applyBinary_whole hresult (natAbs_le_largestExact.2 hbound)

/-- A quotient that is folded and a sum that is too large to be, as the value of a field and in a
method. -/
def sums : String :=
  "don f() \x7b guild G \x7b x: int; forge() \x7b mine.x = (0 - 7) / 2; \x7d" ++
  " don m() -> int \x7b return 9007199254740991 + 1; \x7d \x7d \x7d"

theorem wholeNumbers_exact_sums :
    ∃ tree program, Tree.Program.ofSource "" sums = .ok tree ∧
      (Checked.ofTree tree).result = .ok program ∧
      (∀ n ∈ [-3, 9007199254740991], ∃ e ∈ program.optimize.value.exprs,
        e.integer?.any (·.equal (.int n)) = true) ∧
      ∀ v t, Expr.literal v t ∈ program.optimize.value.exprs →
        (t = .int ↔ ∃ n, v = .int n) ∧ ∀ n, v = .int n → |n| ≤ 2 ^ 53 - 1 := by
  have haccepts : accepts sums (fun p => [-3, 9007199254740991].all fun n =>
      p.optimize.value.exprs.any fun e => e.integer?.any (·.equal (.int n))) = true := by
    refine Chars.accepts (.append .lit .lit) ?_
    decide +kernel
  obtain ⟨tree, program, htree, hprogram, hall⟩ := exists_of_accepts haccepts
  refine ⟨tree, program, htree, hprogram, fun n hn => ?_,
    (wholeNumbers_exact_of_accepted hprogram).1 true⟩
  obtain ⟨e, he, hvalue⟩ := List.any_eq_true.1 (List.all_eq_true.1 hall n hn)
  exact ⟨e, he, hvalue⟩

end Dragon
