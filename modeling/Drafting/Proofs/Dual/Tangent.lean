import Drafting.Proofs.Exact.Field
import Drafting.Dual.Power
import Drafting.Proofs.Dual.Width

namespace Drafting.Value

/-!
# Values in exact arithmetic

In exact arithmetic a value is a number `x` with a gradient `dx`, no matter whether it is stored as
a dual or as a plain number, whose gradient is zero.  Every operation has its rule for the gradient.

* `Value.Tangent` — a value stands for a number and its gradient;
* `Tangent.unary`, `Tangent.binary` — functions and operations in general;
* `Tangent.timesPower` — repeated squaring is a power among the numbers with gradients;
* `Tangent.wholePower` — the power rule to the exponent that is kept;
* `Tangent.power` — the power rule.
-/

variable {K : Type} [ExactScalar K] {n : Nat} {v w : Value K} {x y : K} {dx dy : Fin n → K}

/-- The value stands for `x` with the gradient `dx`. -/
def Tangent (v : Value K) (x : K) (dx : Fin n → K) : Prop := v.toDual n = ⟨x, List.ofFn dx⟩

/-- Other terms for the number and the gradient. -/
theorem Tangent.congr (h : v.Tangent x dx) (hx : x = y) (hd : ∀ j, dx j = dy j) :
    v.Tangent y dy := by
  obtain rfl := hx
  obtain rfl : dx = dy := funext hd
  exact h

theorem Tangent.real_eq (h : v.Tangent x dx) : v.real = x := by
  rw [← value_toDual v n, h]

theorem Tangent.hasWidth (h : v.Tangent x dx) : v.HasWidth n := by
  cases v with
  | number y => trivial
  | dual d => simp [show d = _ from h]

theorem tangent_number (h : ∀ j, dx j = 0) : (number x).Tangent x dx := by
  obtain rfl : dx = fun _ => 0 := funext h
  simp [Tangent, toDual, Dual.constant]

theorem Tangent.of_number (h : (number y).Tangent x dx) : y = x ∧ ∀ j, dx j = 0 := by
  have flat : (number y).Tangent y (fun _ : Fin n => 0) := tangent_number fun _ => rfl
  obtain ⟨value, partials⟩ := Dual.mk.inj (flat.symm.trans h)
  exact ⟨value, fun j => (congrFun (List.ofFn_injective partials) j).symm⟩

/-- A variable. -/
theorem tangent_seed (i : Nat) :
    (dual (Dual.seed x i n)).Tangent x (fun j : Fin n => if j = i then 1 else 0) := by
  have partials : (Dual.seed x i n).partials =
      List.ofFn fun j : Fin n => if (j : Nat) = i then (1 : K) else 0 := by
    apply List.ext_getElem <;> simp [Dual.seed]
  rw [Tangent, toDual, ← partials]
  rfl

/-- The chain rule. -/
theorem Tangent.unary (f df : K → K) (h : v.Tangent x dx) :
    (v.unary f df).Tangent (f x) (fun j => dx j * df x) := by
  cases v with
  | number y =>
    obtain ⟨rfl, flat⟩ := h.of_number
    exact tangent_number fun j => by rw [flat j, zero_mul]
  | dual d =>
    obtain rfl : d = ⟨x, List.ofFn dx⟩ := h
    simp [Value.unary, Tangent, toDual, Dual.scale, Function.comp_def]

/-- The rule of an operation that takes plain numbers to plain numbers. -/
theorem Tangent.binary (f : K → K → K) (df : K → K → K → K → K) (h0 : ∀ a b, df a 0 b 0 = 0)
    (hv : v.Tangent x dx) (hw : w.Tangent y dy) :
    (Value.binary f df v w).Tangent (f x y) (fun j => df x (dx j) y (dy j)) := by
  by_cases h : ∃ a b, v = .number a ∧ w = .number b
  · obtain ⟨a, b, rfl, rfl⟩ := h
    obtain ⟨rfl, flat⟩ := hv.of_number
    obtain ⟨rfl, flat'⟩ := hw.of_number
    exact tangent_number fun j => by rw [flat j, flat' j, h0]
  · have width := hv.hasWidth.width_eq hw.hasWidth h
    unfold Value.binary
    split
    · exact absurd ⟨_, _, rfl, rfl⟩ h
    · rw [Tangent, toDual, width, show v.toDual n = _ from hv, show w.toDual n = _ from hw]
      congr 1
      apply List.ext_getElem <;> simp

/-! ### The four operations -/

theorem Tangent.add (hv : v.Tangent x dx) (hw : w.Tangent y dy) :
    (Value.add v w).Tangent (x + y) (fun j => dx j + dy j) :=
  hv.binary _ _ (fun _ _ => add_zero 0) hw

theorem Tangent.sub (hv : v.Tangent x dx) (hw : w.Tangent y dy) :
    (Value.sub v w).Tangent (x - y) (fun j => dx j - dy j) :=
  hv.binary _ _ (fun _ _ => sub_zero 0) hw

theorem Tangent.mul (hv : v.Tangent x dx) (hw : w.Tangent y dy) :
    (Value.mul v w).Tangent (x * y) (fun j => dx j * y + x * dy j) :=
  hv.binary _ _ (fun _ _ => by simp) hw

/-- A divisor other than zero is kept. -/
theorem Tangent.nonzero_eq (hw : w.Tangent y dy) (hy : y ≠ 0) : w.nonzero = w := by
  have real := hw.real_eq
  cases w with
  | number b =>
    obtain rfl : b = y := real
    simp [Value.nonzero, ExactScalar.isZero_eq_false hy]
  | dual d =>
    obtain rfl : d.value = y := real
    simp [Value.nonzero, ExactScalar.isZero_eq_false hy]

theorem Tangent.div (hv : v.Tangent x dx) (hw : w.Tangent y dy) (hy : y ≠ 0) :
    (Value.div v w).Tangent (x / y) (fun j => (y * dx j - x * dy j) / (y * y)) := by
  rw [Value.div, hw.nonzero_eq hy]
  exact hv.binary _ _ (fun _ _ => by simp) hw

/-! ### Powers

Numbers with gradients form a commutative ring, in which a gradient times a gradient is zero. -/

open TrivSqZeroExt

variable {g h : TrivSqZeroExt K (Fin n → K)}

/-- The product rule is the multiplication of the ring. -/
theorem Tangent.ring_mul (hv : v.Tangent g.fst g.snd) (hw : w.Tangent h.fst h.snd) :
    (Value.mul v w).Tangent (g * h).fst (g * h).snd := by
  have gradient : (g * h).snd = fun j => g.snd j * h.fst + g.fst * h.snd j := by
    funext j
    simp [add_comm, mul_comm]
  rw [fst_mul, gradient]
  exact hv.mul hw

/-- Repeated squaring. -/
theorem Tangent.timesPower (hv : v.Tangent g.fst g.snd) (hw : w.Tangent h.fst h.snd) (k : Nat) :
    (Value.timesPower v w k).Tangent (g * h ^ k).fst (g * h ^ k).snd := by
  induction k using Nat.strong_induction_on generalizing v w g h with
  | _ k ih =>
    by_cases hk : k = 0
    · simpa [hk, timesPower_zero] using hv
    · have half : k / 2 < k := Nat.div_lt_self (Nat.pos_of_ne_zero hk) one_lt_two
      rw [timesPower_step v w hk]
      split
      case isTrue odd =>
        have split : g * h ^ k = g * h * (h * h) ^ (k / 2) := by
          rw [← pow_two, ← pow_mul, mul_assoc, ← pow_succ', Nat.two_mul_div_two_add_one_of_odd
            (Nat.odd_iff.mpr odd)]
        rw [split]
        exact ih _ half (hv.ring_mul hw) (hw.ring_mul hw)
      case isFalse even =>
        have split : g * h ^ k = g * (h * h) ^ (k / 2) := by
          rw [← pow_two, ← pow_mul, Nat.two_mul_div_two_of_even (Nat.even_iff.mpr (by omega))]
        rw [split]
        exact ih _ half hv (hw.ring_mul hw)

/-- The power rule for natural exponents. -/
theorem Tangent.natPower (hw : w.Tangent x dx) (m : Nat) :
    (Value.timesPower (.dual (Dual.constant Scalar.one n)) w m).Tangent (x ^ m)
      (fun j => m * x ^ (m - 1) * dx j) := by
  have one : (dual (Dual.constant (Scalar.one : K) n)).Tangent
      (fst (1 : TrivSqZeroExt K (Fin n → K))) (snd (1 : TrivSqZeroExt K (Fin n → K))) := by
    have unit : (number (1 : K)).Tangent 1 (0 : Fin n → K) := tangent_number fun _ => rfl
    rw [fst_one, snd_one, ExactScalar.one_eq]
    exact unit
  have hh : w.Tangent (fst (inl x + inr dx)) (snd (inl x + inr dx)) := by simpa using hw
  have result := one.timesPower hh m
  have gradient : ((inl x + inr dx) ^ m).snd = fun j => m * x ^ (m - 1) * dx j := by
    funext j
    simp [snd_pow, mul_assoc]
  rw [one_mul, gradient] at result
  simpa using result

/-- The powers of a reciprocal follow the power rule for negative exponents. -/
theorem reciprocal_slope (hx : x ≠ 0) (m : Nat) (d : K) :
    ((m + 1 : Nat) : K) * (1 / x) ^ m * ((x * 0 - 1 * d) / (x * x)) =
      ((-(m + 1 : Nat) : ℤ) : K) * x ^ (-(m + 1 : Nat) - 1 : ℤ) * d := by
  have exponent : (-(m + 1 : Nat) - 1 : ℤ) = -(m + 2 : Nat) := by push_cast; ring
  rw [exponent, zpow_neg, zpow_natCast, one_div, inv_pow]
  push_cast
  field_simp
  ring

/-- The exponent that a power is multiplied out to: 64 bits of its absolute value are kept, and what
    has more of them is cut down to the largest. -/
def keptExponent (k : ℤ) : ℤ := max (-(2 ^ 64 - 1)) (min k (2 ^ 64 - 1))

theorem keptExponent_eq {k : ℤ} : keptExponent k = k ↔ k.natAbs < 2 ^ 64 := by
  unfold keptExponent
  omega

variable [ExactPowers K] {k : ℤ}

/-- The power rule for what depends on a variable, to the exponent that is kept. -/
theorem Tangent.wholePower {d : Dual K} (hd : (dual d).Tangent x dx) (hx : k < 0 → x ≠ 0) :
    (Value.wholePower d (k : K)).Tangent (x ^ keptExponent k)
      (fun j => keptExponent k * x ^ (keptExponent k - 1) * dx j) := by
  have width : d.partials.length = n := hd.hasWidth
  have nonzero (h : k ≠ 0) : ¬ Scalar.isZero (k : K) = true := by
    simpa [ExactScalar.isZero_iff] using h
  have whole : Scalar.wholePart (k : K) = (keptExponent k).natAbs := by
    rw [ExactPowers.wholePart_intCast, keptExponent]
    omega
  rw [Value.wholePower, width, whole, ExactPowers.less_zero_intCast]
  rcases lt_trichotomy k 0 with neg | rfl | pos
  · rw [if_neg (nonzero neg.ne), if_pos (decide_eq_true neg)]
    obtain ⟨m, hm⟩ : ∃ m : Nat, keptExponent k = -((m + 1 : Nat) : ℤ) :=
      ⟨(keptExponent k).natAbs - 1, by unfold keptExponent; omega⟩
    have one : (number (Scalar.one : K)).Tangent 1 (fun _ : Fin n => 0) :=
      (tangent_number fun _ => rfl).congr ExactScalar.one_eq fun _ => rfl
    rw [hm, Int.natAbs_neg, Int.natAbs_natCast]
    refine ((one.div hd (hx neg)).natPower (m + 1)).congr ?_ fun j => reciprocal_slope (hx neg) m _
    rw [zpow_neg, zpow_natCast, one_div, inv_pow]
  · rw [if_pos (by simp [ExactScalar.isZero_iff])]
    have constant := hd.natPower 0
    rw [timesPower_zero] at constant
    exact constant.congr (by simp [keptExponent]) (by simp [keptExponent])
  · rw [if_neg (nonzero pos.ne'), if_neg (by simpa using pos.le)]
    obtain ⟨m, hm⟩ : ∃ m : Nat, keptExponent k = ((m + 1 : Nat) : ℤ) :=
      ⟨(keptExponent k).natAbs - 1, by unfold keptExponent; omega⟩
    rw [hm, Int.natAbs_natCast]
    exact (hd.natPower (m + 1)).congr (zpow_natCast ..).symm (by simp)

/-- The power rule. -/
theorem Tangent.power (hv : v.Tangent x dx) (hk : k.natAbs < 2 ^ 64) (hx : k < 0 → x ≠ 0) :
    ∃ r, Value.power v (.number (k : K)) = .ok r ∧
      r.Tangent (x ^ k) (fun j => k * x ^ (k - 1) * dx j) := by
  cases v with
  | number b =>
    obtain ⟨rfl, flat⟩ := hv.of_number
    have constant : (number (b ^ k)).Tangent (b ^ k) (fun j => k * b ^ (k - 1) * dx j) :=
      tangent_number fun j => by rw [flat j, mul_zero]
    exact ⟨.number (b ^ k), by rw [Value.power, ExactPowers.pow_eq hx], constant⟩
  | dual d =>
    have whole := hv.wholePower hx
    rw [keptExponent_eq.mpr hk] at whole
    exact ⟨_, by rw [Value.power, if_pos (ExactPowers.isWhole_intCast k)], whole⟩

end Drafting.Value
