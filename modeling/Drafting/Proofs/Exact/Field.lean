import Mathlib
import Drafting.Dual.Arithmetic

namespace Drafting

/-!
# Exact arithmetic

Scalars that form a field, in which no operation rounds.  The elementary functions may be any
functions on the field.  What an order or a power has to do is asked for only where it is needed.

* `ExactScalar` — a field with exact operations;
* `ExactOrder` — the order test and the absolute value are those of an ordered field;
* `ExactFinite` — every value is finite;
* `ExactPowers` — whole exponents are recognised, and powers with them are exact;
* `ExactRoots` — the square root of a number that is not negative is exact.
-/

/-- A field whose operations are those of the scalars. -/
class ExactScalar (K : Type) extends Scalar K, Field K where
  /-- A numeral has the value it spells. -/
  ofDecimal_eq (m p : Nat) : ofDecimal m p = (m : K) / 10 ^ p
  /-- The test for zero is exact. -/
  isZero_iff (x : K) : isZero x = true ↔ x = 0

/-- The order test and the absolute value are exact. -/
class ExactOrder (K : Type) [ExactScalar K] [LinearOrder K] : Prop where
  less_iff (x y : K) : Scalar.less x y = true ↔ x < y
  abs_eq (x : K) : Scalar.abs x = |x|

/-- No value is infinite or undefined. -/
class ExactFinite (K : Type) [ExactScalar K] : Prop where
  isFinite (x : K) : Scalar.isFinite x = true

/-- Whole exponents are recognised for what they are, and powers with them are exact. -/
class ExactPowers (K : Type) [ExactScalar K] : Prop where
  isWhole_intCast (k : ℤ) : Scalar.isWhole (k : K) = true
  less_zero_intCast (k : ℤ) : Scalar.less (k : K) Scalar.zero = decide (k < 0)
  /-- Only 64 bits of a whole part are kept. -/
  wholePart_intCast (k : ℤ) : Scalar.wholePart (k : K) = min k.natAbs (2 ^ 64 - 1)
  pow_intCast (b : K) (k : ℤ) (h : b ≠ 0 ∨ 0 ≤ k) : Scalar.pow b (k : K) = b ^ k

/-- A number that is not negative has its square root. -/
class ExactRoots (K : Type) [ExactScalar K] [LinearOrder K] : Prop where
  sqrt_nonneg (x : K) (h : 0 ≤ x) : 0 ≤ Scalar.sqrt x
  sq_sqrt (x : K) (h : 0 ≤ x) : Scalar.sqrt x ^ 2 = x

namespace ExactScalar

variable {K : Type} [ExactScalar K]

@[simp] theorem ofNat_eq (n : Nat) : (Scalar.ofNat n : K) = n := by
  simp [Scalar.ofNat, ofDecimal_eq]

@[simp] theorem zero_eq : (Scalar.zero : K) = 0 := by simp [Scalar.zero]

@[simp] theorem one_eq : (Scalar.one : K) = 1 := by simp [Scalar.one]

theorem half_eq : (Scalar.half : K) = 5 / 10 := by simp [Scalar.half, ofDecimal_eq]

theorem isZero_eq_false {x : K} (h : x ≠ 0) : Scalar.isZero x = false := by
  rw [Bool.eq_false_iff]
  exact fun hx => h ((isZero_iff x).mp hx)

/-- The slope of a quotient is the quotient, unless its divisor is zero. -/
theorem slope_eq {b : K} (a : K) (h : b ≠ 0) : Value.slope a b = a / b := by
  rw [Value.slope, isZero_eq_false h, if_neg Bool.false_ne_true]

end ExactScalar

theorem ExactFinite.allFinite {K : Type} [ExactScalar K] [ExactFinite K] (xs : List K) :
    Scalar.allFinite xs = true :=
  List.all_eq_true.mpr fun x _ => isFinite x

namespace ExactPowers

variable {K : Type} [ExactScalar K] [ExactPowers K]

theorem pow_eq {b : K} {k : ℤ} (h : k < 0 → b ≠ 0) : Scalar.pow b (k : K) = b ^ k :=
  pow_intCast b k ((lt_or_ge k 0).imp h id)

/-- The slope of a power.  At `k = 0` the power in it may have no value, but its factor is zero. -/
theorem mul_pow_pred_eq {b : K} {k : ℤ} (h : k < 0 → b ≠ 0) :
    (k : K) * Scalar.pow b (k - 1) = k * b ^ (k - 1) := by
  by_cases zero : k = 0
  · simp [zero]
  · have power := pow_intCast b (k - 1) ((lt_or_ge k 0).imp h fun nonneg => by omega)
    rw [Int.cast_sub, Int.cast_one] at power
    rw [power]

/-- Where the sign of integers is seen, no integer but zero is zero. -/
instance charZero (K : Type) [ExactScalar K] [ExactPowers K] : CharZero K := by
  refine charZero_of_inj_zero fun n hn => ?_
  have sign := less_zero_intCast (K := K) (-n)
  have cast : (((-n : ℤ) : K)) = ((0 : ℤ) : K) := by simp [hn]
  rw [cast, less_zero_intCast] at sign
  simpa using sign

end ExactPowers

end Drafting
