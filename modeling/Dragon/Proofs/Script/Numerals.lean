import Dragon.Proofs.Script.Lexicon

/-!
# Numbers are written as numerals

No digits start with a needless zero, since the shortest decimal of a number other than zero has
digits other than zero.
-/
namespace Dragon

namespace Decimal

/-! ### Shortest decimals -/

theorem power_pos {base : Nat} (h : 0 < base) (exponent : Int) :
    0 < (power base exponent).1 ∧ 0 < (power base exponent).2 := by
  unfold power
  split
  · exact ⟨Nat.pow_pos h, Nat.one_pos⟩
  · exact ⟨Nat.one_pos, Nat.pow_pos h⟩

/-- Zero does not round to a number other than zero. -/
theorem Binary.onGrid?_ne_zero {b : Binary} (h : b.mantissa ≠ 0) {k : Int} {d : Nat}
    (hd : b.onGrid? k = some d) : d ≠ 0 := by
  obtain ⟨htwo, -⟩ := power_pos Nat.zero_lt_two (b.exponent - 2)
  obtain ⟨-, hten⟩ := power_pos (Nat.zero_lt_succ 9) k
  unfold Binary.onGrid? at hd
  generalize power 2 (b.exponent - 2) = two at htwo hd
  generalize power 10 k = ten at hten hd
  have hlow : 0 < (4 * b.mantissa - (if b.narrow then 1 else 2)) * (two.1 * ten.2) := by
    refine Nat.mul_pos ?_ (Nat.mul_pos htwo hten)
    split <;> omega
  rintro rfl
  dsimp only at hd
  generalize (4 * b.mantissa - (if b.narrow then 1 else 2)) * (two.1 * ten.2) = low at hd hlow
  generalize roundDiv _ _ = nearest at hd
  generalize (if (nearest == _) = true then _ else _) = other at hd
  -- Whichever of the two is taken lies in the interval, and zero lies below it.
  split_ifs at hd with heven hnearest hother hnearest hother <;> cases hd
  iterate 2
    · simp only [Nat.zero_mul, Bool.and_eq_true, decide_eq_true_eq] at hnearest
      omega
    · simp only [Nat.zero_mul, Bool.and_eq_true, decide_eq_true_eq] at hother
      omega

/-- Trimming zeros leaves a digit. -/
theorem trim_ne_zero {d : Decimal} (h : d.digits ≠ 0) (fuel : Nat) : (d.trim fuel).digits ≠ 0 := by
  induction fuel generalizing d with
  | zero => exact h
  | succ fuel ih =>
    unfold trim
    split
    next hten =>
      refine ih ?_
      simp only [Bool.and_eq_true, beq_iff_eq] at hten
      have := hten.2
      show d.digits / 10 ≠ 0
      omega
    next => exact h

theorem Binary.exponent_shortest {b : Binary} (h : b.shortest.digits = 0) :
    b.shortest.exponent = 0 := by
  unfold Binary.shortest at h ⊢
  split
  next => rfl
  next hmantissa =>
    rw [if_neg hmantissa] at h
    dsimp only at h ⊢
    split
    next d hd =>
      rw [hd] at h
      obtain ⟨k, -, hk⟩ := List.exists_of_findSome?_eq_some hd
      obtain ⟨n, hn, rfl⟩ := Option.map_eq_some_iff.1 hk
      have hne : n ≠ 0 := onGrid?_ne_zero (by simpa using hmantissa) hn
      exact absurd h (trim_ne_zero hne 17)
    next => rfl

/-! ### Digits -/

theorem isDigit_digitsOf (n : Nat) : ∀ c ∈ digitsOf n, c.isDigit = true :=
  fun _ hc => Nat.isDigit_of_mem_toDigits (by decide) (by decide) hc

theorem head?_digitsOf {n : Nat} (h : n ≠ 0) : (digitsOf n).head? ≠ some '0' := by
  induction n using Nat.strongRecOn with
  | ind n ih =>
    unfold digitsOf at ih ⊢
    by_cases hlt : n < 10
    · rw [Nat.toDigits_of_lt_base hlt]
      simpa using h
    · have hquotient := ih (n / 10) (by omega) (by omega)
      rw [Nat.toDigits_of_base_le (by decide) (by omega), List.head?_append]
      cases hhead : (Nat.toDigits 10 (n / 10)).head? with
      | none => exact absurd (List.head?_eq_none_iff.1 hhead) Nat.toDigits_ne_nil
      | some c =>
        rw [hhead] at hquotient
        simpa using hquotient

end Decimal

namespace Script

open Decimal

theorem isWhole_digitsOf (n : Nat) : IsWhole (digitsOf n) where
  ne_nil := Nat.toDigits_ne_nil
  digits := isDigit_digitsOf n
  zero := by
    intro hzero
    by_cases hn : n = 0
    · subst hn
      rfl
    · exact absurd hzero (head?_digitsOf hn)

theorem isDigit_zeroes (n : Nat) : ∀ c ∈ zeroes n, c.isDigit = true := by
  intro c hc
  obtain rfl := List.eq_of_mem_replicate hc
  rfl

theorem isNumeral_digitsOf (n : Nat) : IsNumeral (digitsOf n) := by
  have hnumeral := IsNumeral.mk (isWhole_digitsOf n) .none .none
  simpa using hnumeral

/-! ### Layouts -/

/-- Positional texts start with one zero at most. -/
theorem isNumeral_positional {n : Nat} {leading : Int} (h : n = 0 → leading = 0) :
    IsNumeral (Layout.positional (digitsOf n) leading) := by
  unfold Layout.positional
  dsimp only
  split_ifs with hneg hshort
  · have hzero : IsWhole ['0'] := ⟨by simp, by simp, by simp⟩
    have hdigits : ∀ d ∈ zeroes (-leading - 1).toNat ++ digitsOf n, d.isDigit = true :=
      List.forall_mem_append.2 ⟨isDigit_zeroes _, isDigit_digitsOf n⟩
    have hnumeral := IsNumeral.mk hzero (.digits hdigits) .none
    simpa using hnumeral
  · have hwhole : IsWhole (digitsOf n ++ zeroes (leading.toNat + 1 - (digitsOf n).length)) := by
      have hdigits := isWhole_digitsOf n
      refine ⟨by simp [hdigits.ne_nil],
        List.forall_mem_append.2 ⟨hdigits.digits, isDigit_zeroes _⟩, fun hhead => ?_⟩
      by_cases hn : n = 0
      · subst hn
        simp [h rfl, digitsOf, zeroes]
      · obtain ⟨c, cs, hcs⟩ := List.exists_cons_of_ne_nil hdigits.ne_nil
        have hne := head?_digitsOf hn
        rw [hcs] at hhead hne
        exact absurd hhead hne
    have hfraction : IsFraction ['.', '0'] := .digits (by simp)
    have hnumeral := IsNumeral.mk hwhole hfraction .none
    simpa using hnumeral
  · have hwhole : IsWhole ((digitsOf n).take (leading.toNat + 1)) := by
      have hdigits := isWhole_digitsOf n
      refine ⟨by simp [hdigits.ne_nil], fun c hc => hdigits.digits c (List.mem_of_mem_take hc),
        fun hhead => ?_⟩
      obtain ⟨c, cs, hcs⟩ := List.exists_cons_of_ne_nil hdigits.ne_nil
      have hlength := hdigits.zero (by rw [hcs] at hhead ⊢; exact hhead)
      omega
    have hfraction : IsFraction ('.' :: (digitsOf n).drop (leading.toNat + 1)) :=
      .digits fun d hd => isDigit_digitsOf n d (List.mem_of_mem_drop hd)
    have hnumeral := IsNumeral.mk hwhole hfraction .none
    simpa using hnumeral

theorem isNumeral_scientific (l : Layout) (n : Nat) (leading : Int) :
    IsNumeral (l.scientific (digitsOf n) leading) := by
  unfold Layout.scientific
  extract_lets power fraction
  have hwhole : IsWhole ((digitsOf n).take 1) := by
    have hdigits := isWhole_digitsOf n
    refine ⟨by simp [hdigits.ne_nil], fun c hc => hdigits.digits c (List.mem_of_mem_take hc),
      fun _ => ?_⟩
    have hpos := List.length_pos_iff.2 hdigits.ne_nil
    rw [List.length_take]
    omega
  have hfraction : IsFraction fraction := by
    simp only [fraction]
    split
    · exact .none
    · exact .digits fun d hd => isDigit_digitsOf n d (List.mem_of_mem_drop hd)
  have hexponent : IsExponent ('e' :: (if leading < 0 then '-' else '+') ::
      (zeroes (l.exponentWidth - power.length) ++ power)) := by
    refine .digits ?_ (by simp [power, (isWhole_digitsOf _).ne_nil])
      (List.forall_mem_append.2 ⟨isDigit_zeroes _, isDigit_digitsOf _⟩)
    split <;> simp
  have hnumeral := IsNumeral.mk hwhole hfraction hexponent
  simpa using hnumeral

theorem isNumeral_decimal (l : Layout) {d : Decimal} (h : d.digits = 0 → d.exponent = 0) :
    IsNumeral (l.decimal d) := by
  unfold Layout.decimal
  dsimp only
  split
  · refine isNumeral_positional fun hzero => ?_
    rw [h hzero, hzero]
    rfl
  · exact isNumeral_scientific l _ _

/-- The text of a finite double without its sign. -/
theorem isNumeral_shortest (x : Float) :
    IsNumeral (floatLayout.decimal (Binary.ofBits x.toBits).shortest) :=
  isNumeral_decimal _ Binary.exponent_shortest

end Script

end Dragon
