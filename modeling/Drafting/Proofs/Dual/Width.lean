import Drafting.Proofs.Dual.Elementary

namespace Drafting

/-!
# The number of partials

Duals that meet in an operation have equally many partials, and the result has as many again.  A
plain number has the width of whatever it meets.

* `Value.HasWidth` — a value that fits among duals with `n` partials;
* `Operator.hasWidth_apply`, `Function.hasWidth_apply` — operators and functions keep the width;
* `Value.HasWidth.length_toDual` — promotion reaches the full width.
-/

variable {F : Type}

namespace Value

/-- A dual has `n` partials; a plain number fits everywhere. -/
def HasWidth (n : Nat) : Value F → Prop
  | .number _ => True
  | .dual d => d.partials.length = n

variable {n : Nat} {v w : Value F}

@[simp] theorem hasWidth_number (x : F) : (number x).HasWidth n := trivial

@[simp] theorem hasWidth_dual {d : Dual F} : (dual d).HasWidth n ↔ d.partials.length = n := Iff.rfl

theorem HasWidth.unary [Mul F] (f df : F → F) (h : v.HasWidth n) : (v.unary f df).HasWidth n := by
  cases v with
  | number x => trivial
  | dual d => simpa [Value.unary, Dual.scale] using h

/-- An operation with a dual is as wide as its operands. -/
theorem HasWidth.width_eq (hv : v.HasWidth n) (hw : w.HasWidth n)
    (h : ¬ ∃ x y, v = .number x ∧ w = .number y) : v.width w = n := by
  cases v with
  | dual a => exact hv
  | number x =>
    cases w with
    | dual b => exact hw
    | number y => exact absurd ⟨x, y, rfl, rfl⟩ h

variable [Scalar F]

theorem HasWidth.length_toDual (h : v.HasWidth n) : (v.toDual n).partials.length = n := by
  cases v with
  | number x => exact Dual.length_constant x n
  | dual d => exact h

/-- An operation keeps the number of partials, and lends it to an operand that has none. -/
theorem HasWidth.binary (f : F → F → F) (df : F → F → F → F → F) (hv : v.HasWidth n)
    (hw : w.HasWidth n) : (Value.binary f df v w).HasWidth n := by
  by_cases h : ∃ x y, v = .number x ∧ w = .number y
  · obtain ⟨x, y, rfl, rfl⟩ := h
    trivial
  · have width := hv.width_eq hw h
    unfold Value.binary
    split
    · trivial
    · simp [width, hv.length_toDual, hw.length_toDual]

theorem HasWidth.nonzero (h : v.HasWidth n) : v.nonzero.HasWidth n := by
  cases v with
  | number x => trivial
  | dual d => exact h

theorem HasWidth.mul (hv : v.HasWidth n) (hw : w.HasWidth n) : (Value.mul v w).HasWidth n :=
  hv.binary _ _ hw

theorem HasWidth.div (hv : v.HasWidth n) (hw : w.HasWidth n) : (Value.div v w).HasWidth n :=
  hv.binary _ _ hw.nonzero

/-- What products keep, powers keep that are multiplied out. -/
theorem timesPower_keeps {P : Value F → Prop} (hmul : ∀ v w, P v → P w → P (Value.mul v w))
    (hv : P v) (hw : P w) (k : Nat) : P (Value.timesPower v w k) := by
  induction k using Nat.strongRecOn generalizing v w with
  | ind k ih =>
    by_cases h : k = 0
    · rw [h, timesPower_zero]
      exact hv
    · rw [timesPower_step v w h]
      refine ih (k / 2) (by omega) ?_ (hmul w w hw hw)
      split
      · exact hmul v w hv hw
      · exact hv

theorem HasWidth.timesPower (hv : v.HasWidth n) (hw : w.HasWidth n) (k : Nat) :
    (Value.timesPower v w k).HasWidth n :=
  timesPower_keeps (fun _ _ => HasWidth.mul) hv hw k

/-- Repeated multiplication keeps the number of partials. -/
theorem HasWidth.wholePower {d : Dual F} (h : d.partials.length = n) (e : F) :
    (Value.wholePower d e).HasWidth n := by
  have one : (Value.dual (Dual.constant (Scalar.one : F) d.partials.length)).HasWidth n := by
    simp [h]
  have factor : (if Scalar.less e Scalar.zero then Value.div (.number Scalar.one) (.dual d)
      else .dual d).HasWidth n := by
    split
    · exact (hasWidth_number _).div h
    · exact h
  unfold Value.wholePower
  split
  · exact one
  · exact one.timesPower factor _

/-- A power has as many partials as its base. -/
theorem HasWidth.power {r : Value F} (hv : v.HasWidth n) (h : Value.power v w = .ok r) :
    r.HasWidth n := by
  unfold Value.power at h
  split at h
  · cases h
  · obtain rfl := Except.ok.inj h
    trivial
  · split at h
    · obtain rfl := Except.ok.inj h
      exact HasWidth.wholePower hv _
    · cases h

end Value

variable [Scalar F] {n : Nat} {v w : Value F}

/-- Functions keep the width. -/
theorem Function.hasWidth_apply (f : Function) (h : v.HasWidth n) : (f.apply v).HasWidth n := by
  rw [f.apply_eq]
  exact h.unary _ _

/-- Operators keep the width. -/
theorem Operator.hasWidth_apply {op : Operator} {r : Value F} (hv : v.HasWidth n)
    (hw : w.HasWidth n) (h : op.apply v w = .ok r) : r.HasWidth n := by
  cases op with
  | pow => exact hv.power h
  | div =>
    obtain rfl := Except.ok.inj h
    exact hv.div hw
  | _ =>
    obtain rfl := Except.ok.inj h
    exact hv.binary _ _ hw

end Drafting
