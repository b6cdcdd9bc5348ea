import Mathlib.Data.Prod.Lex
import Mathlib.Data.Fintype.Card
import Mathlib.Data.Fintype.EquivFin
import Mathlib.Order.WellFounded
import Drafting.Proofs.Double.Place

namespace Drafting.Double

open Float.Model Float.Model.UnpackedFloat

/-!
# The order of doubles

Doubles are compared by kind first, from minus infinity over the negative numbers, zero and the
positive numbers to infinity; then by exponent and mantissa, the other way round for negative
numbers.  An undefined double is less than nothing, and nothing is less than it.

* `lt_iff` — the order test, as a comparison of keys;
* `less_irrefl`, `less_trans` — it is a strict order;
* `wellFounded_less` — there are only finitely many doubles, so that none goes down forever.
-/

/-- What kind of number it is, in ascending order. -/
def kind : UnpackedFloat → Int
  | .infinity .negative => -2
  | .finite .negative .. => -1
  | .zero _ => 0
  | .notANumber => 0
  | .finite .positive .. => 1
  | .infinity .positive => 2

/-- The exponent and the mantissa, with the sign of the number. -/
def size : UnpackedFloat → Int × Int
  | .finite s m e _ => (s.apply e, s.apply m)
  | _ => (0, 0)

/-- What numbers are compared by. -/
def key (u : UnpackedFloat) : Int ×ₗ Int ×ₗ Int := toLex (kind u, toLex (size u))

theorem key_lt_iff {u v : UnpackedFloat} :
    key u < key v ↔ kind u < kind v ∨ kind u = kind v ∧
      ((size u).1 < (size v).1 ∨ (size u).1 = (size v).1 ∧ (size u).2 < (size v).2) := by
  simp [key, Prod.Lex.toLex_lt_toLex]

/-- Two finite numbers are compared by exponent, then by mantissa. -/
theorem compare_then_eq_lt {e e' : Int} {m m' : Nat} :
    (compare e e').then (compare m m') = .lt ↔ e < e' ∨ e = e' ∧ m < m' := by
  rw [Ordering.then_eq_lt, compare_lt_iff_lt, compare_eq_iff_eq, compare_lt_iff_lt]

theorem compare_then_eq_gt {e e' : Int} {m m' : Nat} :
    (compare e e').then (compare m m') = .gt ↔ e' < e ∨ e = e' ∧ m' < m := by
  rw [Ordering.then_eq_gt, compare_gt_iff_gt, compare_eq_iff_eq, compare_gt_iff_gt]

theorem compare_sign_eq_lt {s s' : Sign} :
    compare s s' = .lt ↔ s = .negative ∧ s' = .positive := by
  cases s <;> cases s' <;> simp [compare]

/-- The order test compares keys. -/
theorem lt_iff {u v : UnpackedFloat} :
    u.lt v = true ↔ u ≠ .notANumber ∧ v ≠ .notANumber ∧ key u < key v := by
  rw [key_lt_iff, UnpackedFloat.lt, beq_iff_eq]
  rcases u with ⟨_ | _⟩ | _ | s | ⟨_ | _, m, e, h⟩ <;>
    rcases v with ⟨_ | _⟩ | _ | s' | ⟨_ | _, m', e', h'⟩ <;>
    simp [UnpackedFloat.compare, kind, size, Sign.apply, compare_sign_eq_lt, compare_then_eq_lt,
      compare_then_eq_gt]

/-! ### Doubles -/

section Less

variable {x y z : Float}

/-- One double is less than another iff it is so unpacked. -/
theorem less_iff : Scalar.less x y = true ↔ x.toModel.unpack.lt y.toModel.unpack = true := by
  show decide (x < y) = true ↔ _
  rw [decide_eq_true_iff]
  show (decide (x.toModel < y.toModel)) = true ↔ _
  rw [decide_eq_true_iff]
  rfl

theorem less_irrefl (x : Float) : Scalar.less x x = false := by
  rw [Bool.eq_false_iff]
  intro h
  exact lt_irrefl _ (lt_iff.mp (less_iff.mp h)).2.2

/-- The order of doubles is transitive, undefined ones included. -/
theorem less_trans (hxy : Scalar.less x y = true) (hyz : Scalar.less y z = true) :
    Scalar.less x z = true := by
  obtain ⟨hx, -, hlt⟩ := lt_iff.mp (less_iff.mp hxy)
  obtain ⟨-, hz, hlt'⟩ := lt_iff.mp (less_iff.mp hyz)
  exact less_iff.mpr (lt_iff.mpr ⟨hx, hz, lt_trans hlt hlt'⟩)

/-- There are no more doubles than bits. -/
instance finiteFloat : Finite Float :=
  Finite.of_injective (fun x : Float => (⟨bits x, bits_lt x⟩ : Fin (2 ^ 64)))
    fun _ _ h => bits_injective (congrArg Fin.val h)

/-- Doubles do not go down forever. -/
theorem wellFounded_less : WellFounded fun x y : Float => Scalar.less x y = true :=
  haveI : IsTrans Float fun x y => Scalar.less x y = true := ⟨fun _ _ _ => less_trans⟩
  haveI : Std.Irrefl fun x y : Float => Scalar.less x y = true :=
    ⟨fun x => Bool.eq_false_iff.mp (less_irrefl x)⟩
  Finite.wellFounded_of_trans_of_irrefl _

/-- The least positive double whose mantissa has all its bits, `2 ^ -1022`. -/
def leastNormal : Float := Float.ofBits 0x0010000000000000

/-- What is above one is infinite, or a number of at least 53 bits. -/
theorem one_less_cases (h : Scalar.less Scalar.one y = true) :
    y.toModel.unpack = .infinity .positive ∨
      ∃ m e hm, y.toModel.unpack = .finite .positive m e hm ∧
        (-52 < e ∨ e = -52 ∧ 2 ^ 52 < m) := by
  have one : (Scalar.one : Float).toModel.unpack =
      .finite .positive (2 ^ 52) (-52) (by decide) := by
    rfl
  rw [less_iff, one, lt_iff, key_lt_iff] at h
  obtain ⟨-, hdefined, hlt⟩ := h
  rcases hy : y.toModel.unpack with ⟨_ | _⟩ | _ | s | ⟨_ | _, m, e, hm⟩ <;>
    simp [hy, kind, size, Sign.apply] at hdefined hlt ⊢
  omega

/-- What is above zero has a positive sign. -/
theorem sign_of_zero_less (h : Scalar.less Scalar.zero x = true) :
    sign x.toModel.unpack = .positive := by
  have zero : (Scalar.zero : Float).toModel.unpack = .zero .positive := by rfl
  rw [less_iff, zero, lt_iff, key_lt_iff] at h
  obtain ⟨-, -, hlt⟩ := h
  rcases hx : x.toModel.unpack with ⟨_ | _⟩ | _ | s | ⟨_ | _, m, e, hm⟩ <;>
    simp [hx, kind, size, Sign.apply, sign] at hlt ⊢

end Less

end Drafting.Double
