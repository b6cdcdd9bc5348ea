import Drafting.Proofs.Double.Place

namespace Drafting.Double

open Float.Model Float.Model.UnpackedFloat

/-!
# Rounding to doubles

A number is cut off at the exponent that doubles of its size have, and its mantissa goes to one of
the two neighbours.  If that makes the mantissa too long, the number is the next power of two; its
place is the one that the count leads to all the same.

* `targetExponent_eq` — the exponent of doubles of a given size;
* `le_roundedMantissa` — where the mantissa goes;
* `exists_round` — the result of rounding, and its place.
-/

variable {m : Nat} {e : Int} {a : Accuracy}

/-- The exponent that a double of the size of `m · 2 ^ e` has. -/
def target (m : Nat) (e : Int) : Int := max ((m.log2 : Int) + e - 52) (-1074)

/-- The exponent that a result is rounded to, in closed form. -/
theorem targetExponent_eq (m : Nat) (e : Int) :
    Format.binary64.targetExponent (totalExponent m e) = target m e := by
  simp only [Format.targetExponent, totalExponent, Format.mantissaBits, Format.minExponent, target]
  norm_num
  omega

/-! ### Shifts -/

/-- A shift to the right divides a mantissa. -/
theorem mantissa_shiftRight (em : ExtendedMantissa) (k : Nat) :
    (em >>> k).mantissa = em.mantissa / 2 ^ k := by
  induction k with
  | zero => exact (Nat.div_one _).symm
  | succ k ih =>
    show (em >>> k).mantissa / 2 = em.mantissa / 2 ^ (k + 1)
    rw [ih, Nat.div_div_eq_div_mul, ← Nat.pow_succ]

/-- The mantissa that is cut off at its target exponent. -/
theorem mantissa_shiftToTargetExponent (m : Nat) (e : Int) (a : Accuracy) :
    (shiftToTargetExponent Format.binary64 m e a).1.mantissa
      = m / 2 ^ (target m e - e).toNat := by
  have start : (ExtendedMantissa.ofMantissaAndAccuracy m a).mantissa = m := by
    cases a with
    | exact => rfl
    | inexact o => cases o <;> rfl
  show (ExtendedMantissa.ofMantissaAndAccuracy m a
    >>> (Format.binary64.targetExponent (totalExponent m e) - e).toNat).mantissa = _
  rw [mantissa_shiftRight, start, targetExponent_eq]

/-- After the shift the exponent is the one aimed at, if it was not above that. -/
theorem exponent_shiftToTargetExponent (h : e ≤ target m e) (a : Accuracy) :
    (shiftToTargetExponent Format.binary64 m e a).2 = target m e := by
  show e + ((Format.binary64.targetExponent (totalExponent m e) - e).toNat : Int) = _
  rw [targetExponent_eq]
  omega

/-- The mantissa goes to one of the two neighbours. -/
theorem le_roundedMantissa (em : ExtendedMantissa) :
    em.mantissa ≤ em.roundedMantissa ∧ em.roundedMantissa ≤ em.mantissa + 1 := by
  obtain ⟨m, r, s⟩ := em
  have parity := Nat.mod_lt m Nat.zero_lt_two
  cases r <;> cases s <;>
    simp only [ExtendedMantissa.roundedMantissa, ExtendedMantissa.accuracy,
      Accuracy.roundToNearestEven] <;> omega

/-- What fits is not cut off. -/
theorem shiftToTargetExponent_of_lt (hm : m < 2 ^ 53) (he : -1074 ≤ e) :
    shiftToTargetExponent Format.binary64 m e .exact = (⟨m, false, false⟩, e) := by
  have short : m.log2 ≤ 52 := by
    by_cases hzero : m = 0
    · simp [hzero]
    · have := (Nat.log2_lt hzero).mpr hm
      omega
  have stays : (Format.binary64.targetExponent (totalExponent m e) - e).toNat = 0 := by
    rw [targetExponent_eq]
    unfold target
    omega
  unfold shiftToTargetExponent shiftToExponent
  dsimp only
  rw [stays]
  exact Prod.ext rfl (Int.add_zero e)

/-- A mantissa that has become too long is halved. -/
theorem shiftToTargetExponent_carry (he : -1074 ≤ e) :
    shiftToTargetExponent Format.binary64 (2 ^ 53) e .exact
      = (⟨2 ^ 52, false, false⟩, e + 1) := by
  have once : (Format.binary64.targetExponent (totalExponent (2 ^ 53) e) - e).toNat = 1 := by
    rw [targetExponent_eq]
    unfold target
    rw [Nat.log2_two_pow]
    omega
  unfold shiftToTargetExponent shiftToExponent
  dsimp only
  rw [once]
  rfl

/-! ### The result -/

/-- The mantissa that is cut off has at most 53 bits. -/
theorem div_lt_of_target (m : Nat) (e : Int) : m / 2 ^ (target m e - e).toNat < 2 ^ 53 := by
  rw [Nat.div_lt_iff_lt_mul (Nat.two_pow_pos _), ← Nat.pow_add]
  refine Nat.lt_of_lt_of_le Nat.lt_log2_self (Nat.pow_le_pow_right Nat.zero_lt_two ?_)
  unfold target
  omega

/-- It has 53 bits, unless the target is the least exponent. -/
theorem le_div_of_target (hm : 0 < m) (he : e ≤ target m e) (h : target m e ≠ -1074) :
    2 ^ 52 ≤ m / 2 ^ (target m e - e).toNat := by
  rw [Nat.le_div_iff_mul_le (Nat.two_pow_pos _), ← Nat.pow_add]
  have exact_bits : 52 + (target m e - e).toNat = m.log2 := by
    unfold target at he h ⊢
    omega
  rw [exact_bits]
  exact Nat.log2_self_le (Nat.ne_of_gt hm)

/-- **Rounding.**  The mantissa that is cut off goes to a neighbour `r`, and the result has the
    place of `r` at the target exponent. -/
theorem exists_round (hm : 0 < m) (he : e ≤ target m e) (s : Sign) (a : Accuracy) :
    ∃ r, m / 2 ^ (target m e - e).toNat ≤ r ∧ r ≤ m / 2 ^ (target m e - e).toNat + 1 ∧
      (0 < r → ∃ m₁ e₁ h₁, roundWithAccuracy Format.binary64 s m e a = .finite s m₁ e₁ h₁ ∧
        Canonical m₁ e₁ ∧ place m₁ e₁ = place r (target m e)) := by
  have least : -1074 ≤ target m e := le_max_right _ _
  have cut := mantissa_shiftToTargetExponent m e a
  have exponent := exponent_shiftToTargetExponent he a
  have bounds := le_roundedMantissa (shiftToTargetExponent Format.binary64 m e a).1
  have short := div_lt_of_target m e
  rw [cut] at bounds
  refine ⟨_, bounds.1, bounds.2, fun hr => ?_⟩
  have long : target m e = -1074 ∨ 2 ^ 52 ≤ m / 2 ^ (target m e - e).toNat := by
    by_cases h : target m e = -1074
    · exact Or.inl h
    · exact Or.inr (le_div_of_target hm he h)
  unfold roundWithAccuracy
  generalize shiftToTargetExponent Format.binary64 m e a = first at *
  obtain ⟨em, e₁⟩ := first
  dsimp only at *
  subst exponent
  by_cases hfits : em.roundedMantissa < 2 ^ 53
  · -- the rounded mantissa fits
    rw [shiftToTargetExponent_of_lt hfits least]
    refine ⟨em.roundedMantissa, target m e, hr, ?_, ⟨hr, hfits, least, ?_⟩, rfl⟩
    · exact dif_neg (Nat.ne_of_gt hr)
    · exact long.imp_right fun hlong => le_trans hlong bounds.1
  · -- it has been rounded up to `2 ^ 53`, which is `2 ^ 52` at the next exponent
    have carried : em.roundedMantissa = 2 ^ 53 := by omega
    rw [carried, shiftToTargetExponent_carry least]
    refine ⟨2 ^ 52, target m e + 1, by decide, rfl,
      ⟨by decide, by decide, by omega, Or.inr le_rfl⟩, ?_⟩
    unfold place
    omega

end Drafting.Double
