import Drafting.Proofs.Dual.Elementary

namespace Drafting

/-!
# Values without their partials

The value of a result depends on the values of the operands alone, whether these are plain numbers
or duals, and however many partials they have.  Powers are an exception: they also ask whether the
operands are plain numbers.

* `Operator.real_apply` — sums, differences, products and quotients;
* `Operator.alike_apply` — all operators, on operands that are alike;
* `Function.real_apply` — functions.
-/

variable {F : Type}

namespace Value

/-- Does the value depend on no variable? -/
def isNumber : Value F → Bool
  | .number _ => true
  | .dual _ => false

/-- Two values that differ in their partials at most. -/
structure Alike (v w : Value F) : Prop where
  real : v.real = w.real
  isNumber : v.isNumber = w.isNumber

variable {v v' w w' : Value F}

theorem real_unary [Mul F] (f df : F → F) (v : Value F) : (v.unary f df).real = f v.real := by
  cases v <;> rfl

theorem isNumber_unary [Mul F] (f df : F → F) (v : Value F) :
    (v.unary f df).isNumber = v.isNumber := by
  cases v <;> rfl

variable [Scalar F]

theorem real_binary (f : F → F → F) (df : F → F → F → F → F) (v w : Value F) :
    (binary f df v w).real = f v.real w.real := by
  cases v <;> cases w <;> rfl

theorem isNumber_binary (f : F → F → F) (df : F → F → F → F → F) (v w : Value F) :
    (binary f df v w).isNumber = (v.isNumber && w.isNumber) := by
  cases v <;> cases w <;> rfl

theorem real_nonzero (v : Value F) :
    v.nonzero.real = if Scalar.isZero v.real then nudge else v.real := by
  cases v <;> rfl

theorem isNumber_nonzero (v : Value F) : v.nonzero.isNumber = v.isNumber := by
  cases v <;> rfl

theorem real_mul_congr (hv : v.real = v'.real) (hw : w.real = w'.real) :
    (mul v w).real = (mul v' w').real := by
  rw [mul, mul, real_binary, real_binary, hv, hw]

theorem real_div_congr (hv : v.real = v'.real) (hw : w.real = w'.real) :
    (div v w).real = (div v' w').real := by
  rw [div, div, real_binary, real_binary, real_nonzero, real_nonzero, hv, hw]

/-! ### Powers -/

/-- The value of a repeated product depends on the values of its factors only. -/
theorem real_timesPower_congr (hv : v.real = v'.real) (hw : w.real = w'.real) (k : Nat) :
    (timesPower v w k).real = (timesPower v' w' k).real := by
  induction k using Nat.strongRecOn generalizing v v' w w' with
  | ind k ih =>
    by_cases h : k = 0
    · rw [h, timesPower_zero, timesPower_zero, hv]
    · rw [timesPower_step v w h, timesPower_step v' w' h]
      refine ih (k / 2) (by omega) ?_ (real_mul_congr hw hw)
      split
      · exact real_mul_congr hv hw
      · exact hv

/-- A repeated product that starts with a dual number is a dual number. -/
theorem isNumber_timesPower (hv : v.isNumber = false) (w : Value F) (k : Nat) :
    (timesPower v w k).isNumber = false := by
  induction k using Nat.strongRecOn generalizing v w with
  | ind k ih =>
    by_cases h : k = 0
    · rw [h, timesPower_zero, hv]
    · rw [timesPower_step v w h]
      refine ih (k / 2) (by omega) ?_ (mul w w)
      split
      · rw [mul, isNumber_binary, hv, Bool.false_and]
      · exact hv

/-- A whole power depends on the value of its base alone. -/
theorem alike_wholePower {d d' : Dual F} (h : d.value = d'.value) (e : F) :
    (wholePower d e).Alike (wholePower d' e) := by
  have one : (dual (.constant (Scalar.one : F) d.partials.length)).real =
      (dual (.constant Scalar.one d'.partials.length)).real := rfl
  have factor : (if Scalar.less e Scalar.zero then div (.number Scalar.one) (.dual d)
      else .dual d).real =
      (if Scalar.less e Scalar.zero then div (.number Scalar.one) (.dual d')
        else .dual d').real := by
    split
    · exact real_div_congr rfl h
    · exact h
  unfold wholePower
  split
  · exact ⟨one, rfl⟩
  · exact ⟨real_timesPower_congr one factor _,
      (isNumber_timesPower rfl _ _).trans (isNumber_timesPower rfl _ _).symm⟩

/-- Powers of operands that are alike are alike, or both fail. -/
theorem alike_power {r : Value F} (hv : v.Alike v') (hw : w.Alike w')
    (h : power v w = .ok r) : ∃ r', power v' w' = .ok r' ∧ r.Alike r' := by
  obtain ⟨hv, hv'⟩ := hv
  obtain ⟨hw, hw'⟩ := hw
  cases w with
  | dual e => cases v <;> cases h
  | number e =>
    cases w' with
    | dual e' => cases hw'
    | number e' =>
      obtain rfl : e = e' := hw
      cases v with
      | number b =>
        cases v' with
        | dual d' => cases hv'
        | number b' =>
          obtain rfl : b = b' := hv
          obtain rfl := Except.ok.inj h
          exact ⟨_, rfl, rfl, rfl⟩
      | dual d =>
        cases v' with
        | number b' => cases hv'
        | dual d' =>
          -- both take the same branch, for they have the same exponent
          rw [power] at h ⊢
          split at h
          · next whole =>
            obtain rfl := Except.ok.inj h
            exact ⟨_, if_pos whole, alike_wholePower hv e⟩
          · cases h

end Value

variable [Scalar F] {v v' w w' r : Value F}

/-! ### Operators and functions -/

theorem Function.real_apply (f : Function) (v : Value F) : (f.apply v).real = f.real v.real := by
  rw [f.apply_eq, Value.real_unary]

theorem Function.isNumber_apply (f : Function) (v : Value F) :
    (f.apply v).isNumber = v.isNumber := by
  rw [f.apply_eq, Value.isNumber_unary]

/-- Operators other than powers have a result whose value depends on the values of the operands
    alone, and which is a plain number iff they both are. -/
theorem Operator.real_apply {op : Operator} (hop : op ≠ .pow) (hv : v.real = v'.real)
    (hw : w.real = w'.real) (h : op.apply v w = .ok r) :
    ∃ r', op.apply v' w' = .ok r' ∧ r.real = r'.real ∧
      r.isNumber = (v.isNumber && w.isNumber) ∧ r'.isNumber = (v'.isNumber && w'.isNumber) := by
  cases op with
  | pow => exact absurd rfl hop
  | div =>
    obtain rfl := Except.ok.inj h
    refine ⟨_, rfl, Value.real_div_congr hv hw, ?_, ?_⟩ <;>
      rw [Value.div, Value.isNumber_binary, Value.isNumber_nonzero]
  | _ =>
    obtain rfl := Except.ok.inj h
    refine ⟨_, rfl, ?_, Value.isNumber_binary _ _ v w, Value.isNumber_binary _ _ v' w'⟩
    exact (Value.real_binary _ _ v w).trans (hv ▸ hw ▸ (Value.real_binary _ _ v' w').symm)

/-- On operands that are alike all operators have results that are alike. -/
theorem Operator.alike_apply {op : Operator} (hv : v.Alike v') (hw : w.Alike w')
    (h : op.apply v w = .ok r) : ∃ r', op.apply v' w' = .ok r' ∧ r.Alike r' := by
  by_cases hop : op = .pow
  · subst hop
    exact Value.alike_power hv hw h
  · obtain ⟨r', hr', hreal, hnumber, hnumber'⟩ := Operator.real_apply hop hv.real hw.real h
    refine ⟨r', hr', hreal, ?_⟩
    rw [hnumber, hnumber', hv.isNumber, hw.isNumber]

end Drafting
