import Drafting.Proofs.Double.Digits
import Drafting.Proofs.Double.Growth

namespace Drafting.Double

open Float.Model Float.Model.UnpackedFloat

/-!
# Numerals are read without a sign

The double that a numeral is read as is a quotient or a product of numbers that are not negative, or
it is zero or infinity: its sign is positive in any case.

* `sign_ofDecimal` — the sign of what a numeral is read as;
* `isUnsigned_ofDecimal` — unless the numeral overflows, it is read as a finite double without a
  minus sign.
-/

/-- Natural numbers are read as doubles with a positive sign. -/
theorem sign_ofUInt64 (n : UInt64) :
    sign (UnpackedFloat.ofUInt64 Format.binary64 n) = .positive := by
  show sign (UnpackedFloat.normalize Format.binary64 (n.toNat : Int) 0 .positive) = .positive
  unfold UnpackedFloat.normalize
  split
  · next h => exact absurd (compare_lt_iff_lt.mp h) (by omega)
  · rfl
  · exact sign_round _ _ _ _

/-- The powers of ten that are doubles themselves are positive. -/
theorem sign_powerOfTen {x : Float} (h : x ∈ Float.exactlyRepresentablePowersOfTen) :
    sign x.toModel.unpack = .positive := by
  have table : ∀ y ∈ Float.exactlyRepresentablePowersOfTen,
      @unpackSign Format.binary64 y.toModel.toBits.toBitVec = 0#1 := by decide +kernel
  exact sign_unpack (table x h)

/-- Decimals are read as doubles with a positive sign. -/
theorem sign_ofScientific (m : Nat) (e : Int) :
    sign (UnpackedFloat.ofScientific Format.binary64 m e) = .positive := by
  unfold UnpackedFloat.ofScientific
  split
  · rfl
  split
  · rfl
  split
  · rfl
  split
  · exact sign_mul_eq rfl rfl
  · exact sign_div_eq rfl rfl

/-- **What a numeral is read as has a positive sign.** -/
theorem sign_ofDecimal (m p : Nat) :
    sign (Scalar.ofDecimal m p : Float).toModel.unpack = .positive := by
  show sign (Float.ofScientific m true p).toModel.unpack = .positive
  unfold Float.ofScientific
  split
  · -- short numerals are quotients of doubles
    exact sign_unpack_pack
      (sign_div_eq (sign_unpack_pack (sign_ofUInt64 _)) (sign_powerOfTen (Array.getElem_mem _)))
  · exact sign_unpack_pack (sign_ofScientific _ _)

theorem isUnsigned_ofDecimal {m p : Nat}
    (h : Scalar.isFinite (Scalar.ofDecimal m p : Float) = true) :
    IsUnsigned (Scalar.ofDecimal m p) :=
  isUnsigned_of_sign (sign_ofDecimal m p) h

end Drafting.Double
