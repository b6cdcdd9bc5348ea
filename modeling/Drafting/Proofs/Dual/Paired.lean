import Drafting.Proofs.Dual.Width
import Drafting.Proofs.Result

namespace Drafting

/-!
# Values of two runs side by side

The rules of differentiation treat all partials alike and do not look at how many there are, so two
runs can be compared: where plain numbers are equal and duals are related, every operator and every
function has related results, or fails alike.  Failures are alike because an operator looks at plain
numbers only when it fails.

* `Dual.Congruence` — what a relation between duals has to keep;
* `Value.Paired` — values of two runs;
* `Operator.paired_apply`, `Function.paired_apply` — operators and functions in two runs.
-/

variable {F : Type}

namespace Dual

/-- A dual from two: the value and the partials each by its own rule. -/
def zip (f : F → F → F) (df : F → F → F → F → F) (a b : Dual F) : Dual F :=
  ⟨f a.value b.value, List.zipWith (fun da db => df a.value da b.value db) a.partials b.partials⟩

variable [Scalar F]

/-- A relation between duals with `n` and duals with `n'` partials that the rules of differentiation
    keep. -/
structure Congruence (n n' : Nat) (R : Dual F → Dual F → Prop) : Prop where
  width : ∀ {d d'}, R d d' → d.partials.length = n ∧ d'.partials.length = n'
  constant : ∀ x, R (constant x n) (constant x n')
  scale : ∀ {d d'} (f df : F → F), R d d' →
    R (d.scale (f d.value) (df d.value)) (d'.scale (f d'.value) (df d'.value))
  zip : ∀ {a a' b b'} (f : F → F → F) (df : F → F → F → F → F), R a a' → R b b' →
    R (a.zip f df b) (a'.zip f df b')
  /-- Another value with the same partials. -/
  revalue : ∀ {d d'} (f : F → F), R d d' →
    R { d with value := f d.value } { d' with value := f d'.value }

end Dual

namespace Value

variable {n n' : Nat} {R : Dual F → Dual F → Prop} {v v' w w' : Value F}

/-- Equal plain numbers, or related duals. -/
inductive Paired (R : Dual F → Dual F → Prop) : Value F → Value F → Prop where
  | number (x : F) : Paired R (.number x) (.number x)
  | dual {d d'} (h : R d d') : Paired R (.dual d) (.dual d')

variable [Scalar F]

/-- An operation with a dual combines duals of the full width. -/
theorem binary_eq_zip (f : F → F → F) (df : F → F → F → F → F) (hv : v.HasWidth n)
    (hw : w.HasWidth n) (h : ¬ ∃ x y, v = .number x ∧ w = .number y) :
    binary f df v w = .dual ((v.toDual n).zip f df (w.toDual n)) := by
  have width := hv.width_eq hw h
  unfold binary
  split
  · exact absurd ⟨_, _, rfl, rfl⟩ h
  · rw [width]
    rfl

namespace Paired

/-- Paired values are related as dual numbers. -/
theorem toDual (hR : Dual.Congruence n n' R) (h : Paired R v v') :
    R (v.toDual n) (v'.toDual n') := by
  cases h with
  | number x => exact hR.constant x
  | dual h => exact h

/-- Paired values have the numbers of partials that belong to the two sides. -/
theorem hasWidth (hR : Dual.Congruence n n' R) (h : Paired R v v') :
    v.HasWidth n ∧ v'.HasWidth n' := by
  cases h with
  | number x => exact ⟨trivial, trivial⟩
  | dual h => exact hR.width h

/-- A function of one argument leads from paired values to paired values. -/
theorem unary (hR : Dual.Congruence n n' R) (f df : F → F) (h : Paired R v v') :
    Paired R (v.unary f df) (v'.unary f df) := by
  cases h with
  | number x => exact .number (f x)
  | dual h => exact .dual (hR.scale f df h)

/-- An operation on paired values leads to paired values: what the operands have in common, the
    result has. -/
theorem binary (hR : Dual.Congruence n n' R) (f : F → F → F) (df : F → F → F → F → F)
    (hv : Paired R v v') (hw : Paired R w w') :
    Paired R (Value.binary f df v w) (Value.binary f df v' w') := by
  by_cases h : ∃ x y, v = .number x ∧ w = .number y
  · obtain ⟨x, y, rfl, rfl⟩ := h
    cases hv
    cases hw
    exact .number (f x y)
  · -- one of the operands is a dual, in both runs
    have h' : ¬ ∃ x y, v' = .number x ∧ w' = .number y := by
      rintro ⟨x, y, rfl, rfl⟩
      cases hv
      cases hw
      exact h ⟨x, y, rfl, rfl⟩
    obtain ⟨widthV, widthV'⟩ := hv.hasWidth hR
    obtain ⟨widthW, widthW'⟩ := hw.hasWidth hR
    rw [binary_eq_zip f df widthV widthW h, binary_eq_zip f df widthV' widthW' h']
    exact .dual (hR.zip f df (hv.toDual hR) (hw.toDual hR))

/-- Paired divisors have their zeros replaced alike. -/
theorem nonzero (hR : Dual.Congruence n n' R) (h : Paired R v v') :
    Paired R v.nonzero v'.nonzero := by
  cases h with
  | number x => exact .number _
  | dual h => exact .dual (hR.revalue (fun x => if Scalar.isZero x then nudge else x) h)

theorem mul (hR : Dual.Congruence n n' R) (hv : Paired R v v') (hw : Paired R w w') :
    Paired R (Value.mul v w) (Value.mul v' w') :=
  hv.binary hR _ _ hw

theorem div (hR : Dual.Congruence n n' R) (hv : Paired R v v') (hw : Paired R w w') :
    Paired R (Value.div v w) (Value.div v' w') :=
  hv.binary hR _ _ (hw.nonzero hR)

/-! ### Powers -/

/-- Repeated squaring on paired values leads to paired values. -/
theorem timesPower (hR : Dual.Congruence n n' R) (hv : Paired R v v') (hw : Paired R w w')
    (k : Nat) : Paired R (Value.timesPower v w k) (Value.timesPower v' w' k) := by
  induction k using Nat.strongRecOn generalizing v v' w w' with
  | ind k ih =>
    by_cases h : k = 0
    · rw [h, timesPower_zero, timesPower_zero]
      exact hv
    · rw [timesPower_step v w h, timesPower_step v' w' h]
      refine ih (k / 2) (by omega) ?_ (hw.mul hR hw)
      split
      · exact hv.mul hR hw
      · exact hv

/-- A power with a whole exponent, on paired duals, leads to paired values. -/
theorem wholePower (hR : Dual.Congruence n n' R) {d d' : Dual F} (h : R d d') (e : F) :
    Paired R (Value.wholePower d e) (Value.wholePower d' e) := by
  obtain ⟨width, width'⟩ := hR.width h
  have one : Paired R (.dual (Dual.constant Scalar.one d.partials.length))
      (.dual (Dual.constant Scalar.one d'.partials.length)) := by
    rw [width, width']
    exact .dual (hR.constant _)
  unfold Value.wholePower
  dsimp only
  split
  · exact one
  split
  · exact one.timesPower hR ((Paired.number _).div hR (.dual h)) _
  · exact one.timesPower hR (.dual h) _

/-- Powers look at plain exponents only, and at whether there is a base to multiply. -/
theorem power (hR : Dual.Congruence n n' R) (hv : Paired R v v') (hw : Paired R w w') :
    AgreeUpTo (Paired R) (Value.power v w) (Value.power v' w') := by
  cases hw with
  | dual => cases hv <;> exact .error _
  | number e =>
    cases hv with
    | number b => exact .ok (.number _)
    | dual h =>
      rw [Value.power, Value.power]
      split
      · exact .ok (wholePower hR h e)
      · exact .error _

end Paired

end Value

variable [Scalar F] {n n' : Nat} {R : Dual F → Dual F → Prop} {v v' w w' : Value F}

/-- Functions have related results. -/
theorem Function.paired_apply (hR : Dual.Congruence n n' R) (f : Function)
    (h : Value.Paired R v v') : Value.Paired R (f.apply v) (f.apply v') := by
  rw [f.apply_eq, f.apply_eq]
  exact h.unary hR _ _

/-- Operators have related results, or fail alike. -/
theorem Operator.paired_apply (hR : Dual.Congruence n n' R) (op : Operator)
    (hv : Value.Paired R v v') (hw : Value.Paired R w w') :
    AgreeUpTo (Value.Paired R) (op.apply v w) (op.apply v' w') := by
  cases op with
  | pow => exact hv.power hR hw
  | div => exact .ok (hv.div hR hw)
  | add | sub | mul => exact .ok (hv.binary hR _ _ hw)

end Drafting
