import Drafting.Proofs.Exact.Real
import Drafting.Proofs.Dual.Real
import Drafting.Proofs.Dual.Tangent
import Drafting.Binary64

namespace Drafting

/-!
# Powers of any size

A whole power of a dual follows the power rule, not for the exponent that is asked for but for the
one that is kept.  An exponent of at most 64 bits is kept as it is.  A larger one is cut down, and
then the result is the power that was asked for only if this does not depend on the exponent.

* `Dual.toPower` — the power rule;
* `Value.power_dual` — what a whole power comes to;
* `Dual.toPower_keptExponent_eq_iff` — when cutting down the exponent makes no difference;
* `Value.power_wholeExponent` — when a whole power is the one that was asked for.
-/

variable {K : Type} [ExactScalar K]

/-- The power of a dual, by the power rule. -/
def Dual.toPower (d : Dual K) (k : ℤ) : Dual K :=
  ⟨d.value ^ k, d.partials.map fun slope => k * d.value ^ (k - 1) * slope⟩

namespace Value

/-- A power of a dual is a dual. -/
theorem isNumber_wholePower (d : Dual K) (e : K) : (wholePower d e).isNumber = false := by
  unfold wholePower
  split
  · rfl
  · exact isNumber_timesPower rfl _ _

variable [ExactPowers K] {d : Dual K} {k : ℤ}

/-- **Whole powers** follow the power rule for the exponent that is kept. -/
theorem power_dual (h : k < 0 → d.value ≠ 0) :
    power (.dual d) (.number (k : K)) = .ok (.dual (d.toPower (keptExponent k))) := by
  have base : (dual d).Tangent d.value
      (fun j : Fin d.partials.length => d.partials[(j : Nat)]) := by
    rw [Tangent, List.ofFn_getElem]
    rfl
  have result := base.wholePower h
  rw [power, if_pos (ExactPowers.isWhole_intCast k)]
  have isDual := isNumber_wholePower d (k : K)
  cases hr : wholePower d (k : K) with
  | number x =>
    rw [hr] at isDual
    cases isDual
  | dual r =>
    rw [hr] at result
    obtain rfl : r = ⟨_, List.ofFn _⟩ := result
    rw [Dual.toPower, ← List.ofFn_getElem_eq_map]

end Value

namespace Dual

open Value

variable [ExactPowers K] {d : Dual K} {k : ℤ}

/-- Another exponent of the same sign gives the same power, if the base is zero, or if it is a
    constant with the same power. -/
theorem toPower_eq_iff {m : ℤ} (hmk : m ≠ k) (hbase : d.value = 0 → 1 < m ∧ 1 < k) :
    d.toPower m = d.toPower k ↔
      d.value = 0 ∨ (∀ slope ∈ d.partials, slope = 0) ∧ d.value ^ (k - m) = 1 := by
  rw [toPower, toPower, Dual.mk.injEq, List.map_inj_left]
  by_cases zero : d.value = 0
  · -- all powers of zero are zero here
    obtain ⟨hm, hk⟩ := hbase zero
    have power (j : ℤ) (hj : 0 < j) : d.value ^ j = 0 := by
      rw [zero, zero_zpow j hj.ne']
    refine ⟨fun _ => .inl zero, fun _ => ⟨?_, fun slope _ => ?_⟩⟩
    · rw [power m (by omega), power k (by omega)]
    · rw [power (m - 1) (by omega), power (k - 1) (by omega)]
      simp
  · have quotient : d.value ^ m = d.value ^ k ↔ d.value ^ (k - m) = 1 := by
      rw [zpow_sub₀ zero, div_eq_one_iff_eq (zpow_ne_zero m zero), eq_comm]
    rw [quotient, and_comm, or_iff_right zero]
    refine and_congr_left fun same => forall₂_congr fun slope _ => ?_
    -- the powers in the slopes are the same, so that the factors have to be
    rw [zpow_sub_one₀ zero, zpow_sub_one₀ zero, quotient.mpr same, mul_assoc, mul_assoc (k : K)]
    have factor : d.value ^ k * d.value⁻¹ ≠ 0 :=
      mul_ne_zero (zpow_ne_zero k zero) (inv_ne_zero zero)
    rw [mul_eq_mul_right_iff, Int.cast_inj, or_iff_right hmk]
    exact mul_eq_zero_iff_left factor

/-- When cutting down the exponent makes no difference. -/
theorem toPower_keptExponent_eq_iff (h : k < 0 → d.value ≠ 0) :
    d.toPower (keptExponent k) = d.toPower k ↔
      k.natAbs < 2 ^ 64 ∨ d.value = 0 ∨
        (∀ slope ∈ d.partials, slope = 0) ∧ d.value ^ (k - keptExponent k) = 1 := by
  by_cases small : k.natAbs < 2 ^ 64
  · rw [keptExponent_eq.mpr small]
    exact iff_of_true rfl (.inl small)
  · rw [or_iff_right small]
    refine toPower_eq_iff (fun heq => small (keptExponent_eq.mp heq)) fun zero => ?_
    have nonneg : ¬ k < 0 := fun neg => h neg zero
    unfold keptExponent
    omega

end Dual

namespace Value

variable [ExactPowers K]

/-- **Whole powers of any size.**  A whole power of a dual has a result, by the power rule for the
    exponent that is kept.  It is the power that was asked for iff the exponent fits into 64 bits,
    or the base is zero, or it is a constant with the same power for both exponents. -/
theorem power_wholeExponent (d : Dual K) (k : ℤ) (h : k < 0 → d.value ≠ 0) :
    power (.dual d) (.number (k : K)) = .ok (.dual (d.toPower (keptExponent k))) ∧
      (power (.dual d) (.number (k : K)) = .ok (.dual (d.toPower k)) ↔
        k.natAbs < 2 ^ 64 ∨ d.value = 0 ∨
          (∀ slope ∈ d.partials, slope = 0) ∧ d.value ^ (k - keptExponent k) = 1) := by
  have result := power_dual (d := d) h
  refine ⟨result, ?_⟩
  rw [result, Except.ok.injEq, dual.injEq]
  exact Dual.toPower_keptExponent_eq_iff h

/-- The inverse square at two, and its slope. -/
theorem power_wholeExponent_inverseSquare :
    ((-2 : ℤ) < 0 → (2 : ℝ) ≠ 0) ∧
      power (.dual ⟨2, [1, 0]⟩) (.number ((-2 : ℤ) : ℝ)) = .ok (.dual ⟨1 / 4, [-1 / 4, 0]⟩) := by
  have base : (-2 : ℤ) < 0 → (2 : ℝ) ≠ 0 := fun _ => two_ne_zero
  refine ⟨base, ?_⟩
  rw [(power_wholeExponent ⟨2, [1, 0]⟩ (-2) base).2.mpr (.inl (by decide)), Dual.toPower]
  norm_num

/-- The double `1e20` is a whole number of 67 bits.  To this exponent the power of `-1` should be
    `1`, and fall as fast as the exponent says; what it comes to is the power to an odd exponent. -/
theorem not_toPower_largeExponent :
    Binary64.ofBits 0x4415AF1D78B58C40 = .finite false 6103515625000000 14 ∧
      (6103515625000000 * 2 ^ 14 : ℤ) = 10 ^ 20 ∧
      power (.dual ⟨-1, [1]⟩) (.number ((10 ^ 20 : ℤ) : ℝ)) = .ok (.dual ⟨-1, [2 ^ 64 - 1]⟩) ∧
      ¬ ∀ (d : Dual ℝ) (k : ℤ), (k < 0 → d.value ≠ 0) →
        power (.dual d) (.number (k : ℝ)) = .ok (.dual (d.toPower k)) := by
  have cut : keptExponent (10 ^ 20) = 2 ^ 64 - 1 := by decide
  have odd : (-1 : ℝ) ^ (2 ^ 64 - 1 : ℤ) = -1 := Odd.neg_one_zpow (by decide)
  have before : (-1 : ℝ) ^ (2 ^ 64 - 1 - 1 : ℤ) = 1 := Even.neg_one_zpow (by decide)
  have even : (-1 : ℝ) ^ (10 ^ 20 : ℤ) = 1 := Even.neg_one_zpow (by decide)
  have result := power_dual (d := (⟨-1, [1]⟩ : Dual ℝ)) (k := 10 ^ 20) (by decide)
  have value : power (.dual ⟨-1, [1]⟩) (.number ((10 ^ 20 : ℤ) : ℝ)) =
      .ok (.dual ⟨-1, [2 ^ 64 - 1]⟩) := by
    rw [result, cut, Dual.toPower]
    simp only [odd, before, List.map_cons, List.map_nil]
    norm_num
  refine ⟨by decide, by norm_num, value, fun all => ?_⟩
  have wanted := all ⟨-1, [1]⟩ (10 ^ 20) (by decide)
  rw [value, Dual.toPower, even] at wanted
  have same : (-1 : ℝ) = 1 := congrArg Dual.value (dual.inj (Except.ok.inj wanted))
  norm_num at same

end Value

end Drafting
