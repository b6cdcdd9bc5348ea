import Mathlib.Tactic.Ring
import Drafting.Proofs.Double.Order
import Drafting.Proofs.Double.Rounding

namespace Drafting.Double

open Float.Model Float.Model.UnpackedFloat

/-!
# Products with a factor above one

A double that is not negative goes up when it is multiplied by a factor above one, as long as the
product is finite: it moves to a later place, or, if it is zero or subnormal, it may stay.  A
subnormal number stays where the factor adds less than half a unit of its mantissa, and zero stays
whatever the factor is.

* `place_le_product` — the place of a rounded product;
* `bits_le_mul` — the same about doubles;
* `sign_mul`, `sign_div` — products and quotients keep a positive sign;
* `less_leastNormal_of_mul_eq` — what stays is below the normal numbers.
-/

section Product

variable {m m' : Nat} {e e' : Int}

/-- The target exponent of a product with a normal number. -/
theorem le_target_mul (hm : 0 < m) (hm' : 2 ^ 52 ≤ m') (e e' : Int) :
    e + e' ≤ target (m * m') (e + e') := by
  have big : 2 ^ 52 ≤ m * m' := hm'.trans (Nat.le_mul_of_pos_left m' hm)
  have hlog : 52 ≤ (m * m').log2 := (Nat.le_log2 (Nat.ne_of_gt (by omega))).mpr big
  unfold target
  omega

/-- The exponent does not go down where the factor is above one. -/
theorem exponent_le_target_mul (h : Canonical m e) (hm' : 2 ^ 52 ≤ m') (he' : -52 ≤ e') :
    e ≤ target (m * m') (e + e') := by
  rcases h.normal with hleast | hnormal
  · exact hleast ▸ le_max_right _ _
  · have big : 2 ^ 104 ≤ m * m' :=
      calc 2 ^ 104 = 2 ^ 52 * 2 ^ 52 := by norm_num
        _ ≤ m * m' := Nat.mul_le_mul hnormal hm'
    have hlog : 104 ≤ (m * m').log2 := (Nat.le_log2 (Nat.ne_of_gt (by omega))).mpr big
    unfold target
    omega

/-- A product that is cut off where its first factor ends. -/
theorem le_mul_div {k : Nat} (hk : k ≤ 52) (hm' : 2 ^ 52 ≤ m') : m ≤ m * m' / 2 ^ k := by
  rw [Nat.le_div_iff_mul_le (Nat.two_pow_pos k)]
  exact Nat.mul_le_mul_left m ((Nat.pow_le_pow_right Nat.zero_lt_two hk).trans hm')

/-- A product of two mantissas, shifted back by fewer than 52 places, or by 52 if the second one is
    above one, exceeds the first. -/
theorem lt_mul_div {k : Nat} (hk : k < 52 ∨ k = 52 ∧ 2 ^ 52 < m') (hm : 2 ^ 52 ≤ m)
    (hm' : 2 ^ 52 ≤ m') : m < m * m' / 2 ^ k := by
  rw [← Nat.succ_le_iff, Nat.le_div_iff_mul_le (Nat.two_pow_pos k)]
  rcases hk with hlt | ⟨rfl, hgt⟩
  · -- the factor is at least two
    have double : 2 * 2 ^ k ≤ m' :=
      calc 2 * 2 ^ k = 2 ^ (k + 1) := by rw [Nat.pow_succ, Nat.mul_comm]
        _ ≤ 2 ^ 52 := Nat.pow_le_pow_right Nat.zero_lt_two hlt
        _ ≤ m' := hm'
    calc (m + 1) * 2 ^ k ≤ (2 * m) * 2 ^ k := Nat.mul_le_mul_right _ (by omega)
      _ = m * (2 * 2 ^ k) := by ring
      _ ≤ m * m' := Nat.mul_le_mul_left m double
  · -- the factor adds at least one unit of the mantissa
    calc (m + 1) * 2 ^ 52 = m * 2 ^ 52 + 2 ^ 52 := by ring
      _ ≤ m * 2 ^ 52 + m := by omega
      _ = m * (2 ^ 52 + 1) := by ring
      _ ≤ m * m' := Nat.mul_le_mul_left m hgt

/-- **A rounded product.**  Its place is not before that of its first factor, and after it if that
    is normal. -/
theorem place_le_product (h : Canonical m e) (hm' : 2 ^ 52 ≤ m')
    (he' : -52 < e' ∨ e' = -52 ∧ 2 ^ 52 < m') :
    ∃ m₁ e₁ h₁, roundWithAccuracy Format.binary64 .positive (m * m') (e + e') .exact
        = .finite .positive m₁ e₁ h₁ ∧ Canonical m₁ e₁ ∧
      place m e ≤ place m₁ e₁ ∧ (2 ^ 52 ≤ m → place m e < place m₁ e₁) := by
  have hpos : 0 < m * m' := Nat.mul_pos h.pos (by omega)
  have reached := le_target_mul h.pos hm' e e'
  have hfactor : -52 ≤ e' := by omega
  have above := exponent_le_target_mul h hm' hfactor
  obtain ⟨r, hr, -, result⟩ := exists_round hpos reached .positive .exact
  have hm := h.lt
  have he := h.le
  rcases Int.lt_or_eq_of_le above with hup | hsame
  · -- a binade further up
    have long := le_div_of_target hpos reached (by omega)
    obtain ⟨m₁, e₁, h₁, heq, hc, hplace⟩ := result (by omega)
    have later : place m e < place r (target (m * m') (e + e')) := by
      unfold place
      omega
    rw [← hplace] at later
    exact ⟨m₁, e₁, h₁, heq, hc, later.le, fun _ => later⟩
  · -- in the same binade the mantissa is multiplied
    have shift : (target (m * m') (e + e') - (e + e')).toNat ≤ 52 := by omega
    have hge := hr.trans' (le_mul_div (m := m) shift hm')
    have hpos := h.pos
    obtain ⟨m₁, e₁, h₁, heq, hc, hplace⟩ := result (by omega)
    rw [← hsame] at hplace
    refine ⟨m₁, e₁, h₁, heq, hc, ?_, fun hnormal => ?_⟩
    · rw [hplace]
      exact Nat.add_le_add_left hge _
    · rw [hplace]
      refine Nat.add_lt_add_left (hr.trans_lt' (lt_mul_div ?_ hnormal hm')) _
      omega

end Product

/-! ### Doubles -/

section Doubles

variable {x y : Float}

theorem isFinite_iff : Scalar.isFinite x = true ↔ x.toModel.unpack.isFinite = true := Iff.rfl

theorem toModel_mul : (x * y).toModel =
    Float.Model.pack (UnpackedFloat.mul Format.binary64 x.toModel.unpack y.toModel.unpack) := rfl

/-- Only finite numbers are packed to finite doubles. -/
theorem isFinite_of_pack {u : UnpackedFloat}
    (h : (Float.Model.pack u).unpack.isFinite = true) : u.isFinite = true := by
  cases u with
  | notANumber => exact absurd h (by decide)
  | infinity s => cases s <;> exact absurd h (by decide)
  | zero s => rfl
  | finite s m e hm => rfl

/-- **A product with a factor above one.**  As long as it is finite, it is at the place of its first
    factor or after it, and after it if that is normal. -/
theorem bits_le_mul (hx : sign x.toModel.unpack = .positive)
    (hy : Scalar.less Scalar.one y = true) (hfinite : Scalar.isFinite (x * y) = true) :
    bits x ≤ bits (x * y) ∧ (2 ^ 52 ≤ bits x → bits x < bits (x * y)) := by
  have hmodel := toModel_mul (x := x) (y := y)
  have hproduct := isFinite_of_pack (hmodel ▸ isFinite_iff.mp hfinite)
  rcases hu : x.toModel.unpack with s | _ | s | ⟨s, m, e, hm⟩ <;> rw [hu] at hx hmodel hproduct
  · rcases one_less_cases hy with hv | ⟨m', e', hm', hv, -⟩ <;> rw [hv] at hproduct <;>
      exact absurd hproduct Bool.false_ne_true
  · exact absurd hproduct Bool.false_ne_true
  · obtain rfl : s = .positive := hx
    rw [bits_of_unpack_zero hu]
    exact ⟨Nat.zero_le _, fun h => absurd h (by decide)⟩
  · obtain rfl : s = .positive := hx
    rcases one_less_cases hy with hv | ⟨m', e', hm', hv, he'⟩ <;> rw [hv] at hproduct hmodel
    · exact absurd hproduct Bool.false_ne_true
    -- what is left are two finite factors, the second one normal
    obtain ⟨hc, hbits⟩ := bits_of_unpack hu
    obtain ⟨hc', -⟩ := bits_of_unpack hv
    have hnormal : 2 ^ 52 ≤ m' := hc'.normal.resolve_left (by omega)
    obtain ⟨m₁, e₁, h₁, hround, hc₁, hle, hlt⟩ := place_le_product hc hnormal he'
    have product : (x * y).toModel = Float.Model.pack (.finite .positive m₁ e₁ h₁) :=
      hmodel.trans (congrArg Float.Model.pack hround)
    -- the product is finite, and so rounding has given it its bits
    have packed : bits (x * y) = place m₁ e₁ := by
      rw [isFinite_iff, product] at hfinite
      show (x * y).toModel.toBits.toNat = _
      rw [product]
      exact toNat_pack hc₁ (le_of_isFinite hfinite)
    rw [hbits, packed]
    refine ⟨hle, fun hfar => hlt ?_⟩
    rcases hc.normal with rfl | hn
    · simpa [place] using hfar
    · exact hn

/-- What a factor above one does not move is below the normal numbers. -/
theorem less_leastNormal_of_mul_eq (hx : sign x.toModel.unpack = .positive)
    (hy : Scalar.less Scalar.one y = true) (hfinite : Scalar.isFinite (x * y) = true)
    (heq : x * y = x) : Scalar.less x leastNormal = true := by
  have small : bits x < 2 ^ 52 := by
    by_contra hfar
    have := (bits_le_mul hx hy hfinite).2 (Nat.le_of_not_lt hfar)
    rw [heq] at this
    exact Nat.lt_irrefl _ this
  have least : leastNormal.toModel.unpack = .finite .positive (2 ^ 52) (-1074) (by decide) := by
    rfl
  rw [heq, isFinite_iff] at hfinite
  rw [less_iff, least, lt_iff, key_lt_iff]
  rcases hu : x.toModel.unpack with s | _ | s | ⟨s, m, e, hm⟩ <;> rw [hu] at hx hfinite
  · cases hfinite
  · cases hfinite
  · simp [kind]
  · obtain rfl : s = .positive := hx
    obtain ⟨hc, hbits⟩ := bits_of_unpack hu
    have hle := hc.le
    rw [hbits, place] at small
    simp [kind, size, Sign.apply]
    omega

/-! ### Signs -/

/-- Rounding keeps the sign. -/
theorem sign_round (s : Sign) (m : Nat) (e : Int) (a : Accuracy) :
    sign (roundWithAccuracy Format.binary64 s m e a) = s := by
  unfold roundWithAccuracy
  dsimp only
  split <;> rfl

theorem sign_mul_eq {u v : UnpackedFloat} (hu : sign u = .positive) (hv : sign v = .positive) :
    sign (UnpackedFloat.mul Format.binary64 u v) = .positive := by
  cases u <;> cases v <;> cases hu <;> cases hv
  all_goals first | rfl | exact sign_round _ _ _ _

theorem sign_div_eq {u v : UnpackedFloat} (hu : sign u = .positive) (hv : sign v = .positive) :
    sign (UnpackedFloat.div Format.binary64 u v) = .positive := by
  cases u <;> cases v <;> cases hu <;> cases hv
  all_goals first | rfl | exact sign_round _ _ _ _

theorem sign_of_one_less (hy : Scalar.less Scalar.one y = true) :
    sign y.toModel.unpack = .positive := by
  rcases one_less_cases hy with hv | ⟨m', e', hm', hv, -⟩ <;> rw [hv] <;> rfl

/-- A product with a factor above one keeps a positive sign. -/
theorem sign_mul (hx : sign x.toModel.unpack = .positive)
    (hy : Scalar.less Scalar.one y = true) : sign (x * y).toModel.unpack = .positive :=
  sign_unpack_pack (sign_mul_eq hx (sign_of_one_less hy))

/-- So does a quotient by a divisor above one. -/
theorem sign_div (hx : sign x.toModel.unpack = .positive)
    (hy : Scalar.less Scalar.one y = true) : sign (x / y).toModel.unpack = .positive :=
  sign_unpack_pack (sign_div_eq hx (sign_of_one_less hy))

end Doubles

end Drafting.Double
