import Drafting.Proofs.Exact.Field

namespace Drafting

/-!
# Real numbers

The real numbers are exact scalars, with the functions of analysis.
-/

open Classical in
noncomputable instance : ExactScalar ℝ where
  __ := (inferInstance : Field ℝ)
  ofDecimal m p := (m : ℝ) / 10 ^ p
  abs x := |x|
  sqrt := Real.sqrt
  sin := Real.sin
  cos := Real.cos
  tan := Real.tan
  asin := Real.arcsin
  acos := Real.arccos
  atan := Real.arctan
  exp := Real.exp
  log := Real.log
  pow x y := x ^ y
  less x y := decide (x < y)
  isZero x := decide (x = 0)
  isFinite _ := true
  isWhole x := decide (Int.fract x = 0)
  wholePart x := min ⌊|x|⌋₊ (2 ^ 64 - 1)
  text _ := ""
  ofDecimal_eq _ _ := rfl
  isZero_iff _ := decide_eq_true_iff

instance : ExactOrder ℝ where
  less_iff _ _ := decide_eq_true_iff
  abs_eq _ := rfl

instance : ExactFinite ℝ where
  isFinite _ := rfl

instance : ExactRoots ℝ where
  sqrt_nonneg x _ := Real.sqrt_nonneg x
  sq_sqrt _ h := Real.sq_sqrt h

instance : ExactPowers ℝ where
  isWhole_intCast k := decide_eq_true (Int.fract_intCast k)
  less_zero_intCast k := by
    rw [ExactScalar.zero_eq]
    exact decide_eq_decide.mpr Int.cast_lt_zero
  wholePart_intCast k := by
    have floor : ⌊|(k : ℝ)|⌋₊ = k.natAbs := by
      rw [← Int.cast_abs, ← Int.natCast_natAbs, Int.cast_natCast, Nat.floor_natCast]
    exact congrArg (min · _) floor
  pow_intCast b k _ := Real.rpow_intCast b k

end Drafting
