import Mathlib

/-!
# Two signs cancel on doubles

A double is a sign, an exponent and a mantissa, and its negative has the other sign and all else in
common; what is no number is its own negative. That packed parts are unpacked again is known to the
library only as a whole.
-/
namespace Dragon.Double

open Float.Model UnpackedFloat

theorem neg_unpack {spec : Format} (s : Sign) (e : BitVec spec.exponentBits)
    (m : BitVec spec.mantissaBitsWithoutImplicit) :
    (unpack spec (packComponents spec s e m)).neg = unpack spec (packComponents spec (-s) e m) := by
  unfold UnpackedFloat.unpack
  simp only [unpackMantissa_packComponents, unpackExponent_packComponents,
    unpackSign_packComponents, Sign.ofBitVec_toBitVec]
  split_ifs <;> rfl

/-- The bits of a double. -/
abbrev Bits := BitVec Format.binary64.numBits

/-- The bits of the negative of a double. -/
def flipped (b : Bits) : Bits := UnpackedFloat.pack .binary64 (unpack .binary64 b).neg

/-- The negative of a number has the other sign, and the same exponent and mantissa. -/
theorem flipped_packComponents (s : Sign) (e : BitVec 11) (m : BitVec 52)
    (h : ¬ (e = -1#11 ∧ m ≠ 0#52)) :
    flipped (packComponents .binary64 s e m) = packComponents .binary64 (-s) e m := by
  have hnumber : ¬ isNaNBits (packComponents .binary64 (-s) e m) = true := by
    simpa [isNaNBits] using h
  unfold flipped
  rw [neg_unpack, pack_unpack _ (by decide), if_neg hnumber]

theorem flipped_flipped {b : Bits} (valid : Format.binary64.Valid b) : flipped (flipped b) = b := by
  by_cases h : unpackExponent b = -1#11 ∧ unpackMantissa b ≠ 0#52
  · rw [valid.eq_packedNaN h.1 h.2]
    decide
  · have hsign (s : Sign) : - -s = s := by cases s <;> rfl
    rw [← packComponents_unpackSign_unpackExponent_unpackMantissa b,
      flipped_packComponents _ _ _ h, flipped_packComponents _ _ _ h, hsign]

theorem neg_neg (x : Float) : - -x = x := by
  obtain ⟨⟨⟨b⟩, valid⟩⟩ := x
  have hb : flipped (flipped b) = b := flipped_flipped valid
  show Float.ofModel ⟨⟨flipped (flipped b)⟩, _⟩ = _
  simp only [hb]

end Dragon.Double
