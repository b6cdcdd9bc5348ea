import Drafting.Proofs.Exact.Field
import Drafting.Proofs.Dual.Width

namespace Drafting

/-!
# Values that do not change along a variable

The partials of a result are put together from the partials of the operands, and where these are
zero, so are those of the result: every rule of differentiation is linear in the slopes it is given.

* `Value.Flat` — a value whose partial along a variable is zero;
* `Operator.flat_apply`, `Function.flat_apply` — operators and functions keep it so.
-/

variable {K : Type} [ExactScalar K] {j : Nat}

/-- The partial along variable `j` is zero, as far as there is one. -/
def Dual.Flat (j : Nat) (d : Dual K) : Prop := ∀ slope, d.partials[j]? = some slope → slope = 0

namespace Value

/-- The value does not change along variable `j`. -/
def Flat (j : Nat) : Value K → Prop
  | .number _ => True
  | .dual d => d.Flat j

variable {v w : Value K}

@[simp] theorem flat_number (x : K) : (number x).Flat j := trivial

/-- A constant is flat along every variable. -/
theorem flat_constant (x : K) (count : Nat) : (Dual.constant x count).Flat j := by
  intro slope h
  obtain ⟨-, rfl⟩ : j < count ∧ Scalar.zero = slope := by
    simpa [Dual.constant, List.getElem?_replicate] using h
  exact ExactScalar.zero_eq

/-- A variable changes along itself only. -/
theorem flat_seed {i : Nat} (h : i ≠ j) (x : K) (count : Nat) : (Dual.seed x i count).Flat j := by
  intro slope hslope
  obtain ⟨k, hk, rfl⟩ : ∃ k, (List.range count)[j]? = some k ∧
      (if k = i then Scalar.one else Scalar.zero) = slope := by
    simpa only [Dual.seed, List.getElem?_map, Option.map_eq_some_iff] using hslope
  obtain rfl : j = k := by simpa using (List.getElem?_eq_some_iff.mp hk).2
  rw [if_neg h.symm, ExactScalar.zero_eq]

theorem Flat.toDual (h : v.Flat j) (count : Nat) : (v.toDual count).Flat j := by
  cases v with
  | number x => exact flat_constant x count
  | dual d => exact h

/-- A function of one argument is flat where its argument is. -/
theorem Flat.unary (h : v.Flat j) (f df : K → K) : (v.unary f df).Flat j := by
  cases v with
  | number x => trivial
  | dual d =>
    intro slope hslope
    obtain ⟨s, hs, rfl⟩ : ∃ s, d.partials[j]? = some s ∧ s * df d.value = slope := by
      simpa only [Dual.scale, List.getElem?_map, Option.map_eq_some_iff] using hslope
    rw [h s hs, zero_mul]

/-- A rule that makes zero of two zero slopes. -/
theorem Flat.binary (hv : v.Flat j) (hw : w.Flat j) (f : K → K → K) {df : K → K → K → K → K}
    (hdf : ∀ a b, df a 0 b 0 = 0) : (Value.binary f df v w).Flat j := by
  have rule : Value.Flat j (.dual ⟨f (v.toDual (width v w)).value (w.toDual (width v w)).value,
      List.zipWith (fun da db => df (v.toDual (width v w)).value da (w.toDual (width v w)).value db)
        (v.toDual (width v w)).partials (w.toDual (width v w)).partials⟩) := by
    intro slope hslope
    obtain ⟨s, t, hs, ht, rfl⟩ := List.getElem?_zipWith_eq_some.mp hslope
    rw [hv.toDual _ s hs, hw.toDual _ t ht, hdf]
  unfold Value.binary
  split
  · trivial
  · exact rule

theorem Flat.mul (hv : v.Flat j) (hw : w.Flat j) : (Value.mul v w).Flat j :=
  hv.binary hw _ fun a b => by simp

theorem Flat.nonzero (h : v.Flat j) : v.nonzero.Flat j := by
  cases v with
  | number x => trivial
  | dual d => exact h

theorem Flat.div (hv : v.Flat j) (hw : w.Flat j) : (Value.div v w).Flat j :=
  hv.binary hw.nonzero _ fun a b => by simp

theorem Flat.timesPower (hv : v.Flat j) (hw : w.Flat j) (k : Nat) :
    (Value.timesPower v w k).Flat j :=
  timesPower_keeps (fun _ _ => Flat.mul) hv hw k

/-- Repeated multiplication keeps what is flat flat. -/
theorem Flat.wholePower {d : Dual K} (h : d.Flat j) (e : K) : (Value.wholePower d e).Flat j := by
  have one : (Value.dual (Dual.constant (Scalar.one : K) d.partials.length)).Flat j :=
    flat_constant _ _
  have factor : (if Scalar.less e Scalar.zero then Value.div (.number Scalar.one) (.dual d)
      else .dual d).Flat j := by
    split
    · exact (flat_number _).div h
    · exact h
  unfold Value.wholePower
  split
  · exact one
  · exact one.timesPower factor _

/-- A power is flat if its base is; it has no value unless its exponent is a number. -/
theorem Flat.power {r : Value K} (hv : v.Flat j) (h : Value.power v w = .ok r) : r.Flat j := by
  unfold Value.power at h
  split at h
  · cases h
  · obtain rfl := Except.ok.inj h
    trivial
  · split at h
    · obtain rfl := Except.ok.inj h
      exact Flat.wholePower hv _
    · cases h

end Value

variable {v w : Value K}

/-- Functions keep a value flat. -/
theorem Function.flat_apply (f : Function) (h : v.Flat j) : (f.apply v).Flat j := by
  rw [f.apply_eq]
  exact h.unary _ _

/-- Operators keep values flat. -/
theorem Operator.flat_apply {op : Operator} {r : Value K} (hv : v.Flat j) (hw : w.Flat j)
    (h : op.apply v w = .ok r) : r.Flat j := by
  cases op with
  | pow => exact hv.power h
  | add =>
    obtain rfl := Except.ok.inj h
    exact hv.binary hw _ fun _ _ => add_zero 0
  | sub =>
    obtain rfl := Except.ok.inj h
    exact hv.binary hw _ fun _ _ => sub_zero 0
  | mul =>
    obtain rfl := Except.ok.inj h
    exact hv.mul hw
  | div =>
    obtain rfl := Except.ok.inj h
    exact hv.div hw

end Drafting
