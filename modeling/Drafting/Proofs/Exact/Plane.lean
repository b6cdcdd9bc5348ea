import Drafting.Proofs.Exact.Field

namespace Drafting

/-!
# Distances in the plane

Points of the plane over an ordered field.  To say what a distance is needs no square root: it is
the number that is not negative and whose square is the sum of the squares of the two differences.
The distance from a line is the least of the distances from its points.

* `IsDistance`, `IsLineDistance` — distances of points from points and from lines;
* `isDistance_iff` — the distance of two points is a square root;
* `isLineDistance_iff` — the distance from a line is a cross product over the length of its
  direction.
-/

section Field

variable {K : Type} [Field K]

/-- The cross product of two directions. -/
def crossProduct (u v : K × K) : K := u.1 * v.2 - u.2 * v.1

/-- The points of the line through two points. -/
def onLine (l₀ l₁ : K × K) (t : K) : K × K :=
  (l₀.1 + t * (l₁.1 - l₀.1), l₀.2 + t * (l₁.2 - l₀.2))

/-- How far the points of a line are from `p`: the part across the line is the same for all of them,
    and the part along the line is zero for one. -/
theorem squared_onLine (p l₀ l₁ : K × K) (t : K) :
    (((onLine l₀ l₁ t).1 - p.1) ^ 2 + ((onLine l₀ l₁ t).2 - p.2) ^ 2) *
        ((l₁.1 - l₀.1) ^ 2 + (l₁.2 - l₀.2) ^ 2) =
      crossProduct (l₁ - l₀) (p - l₀) ^ 2 + (t * ((l₁.1 - l₀.1) ^ 2 + (l₁.2 - l₀.2) ^ 2) -
        ((p.1 - l₀.1) * (l₁.1 - l₀.1) + (p.2 - l₀.2) * (l₁.2 - l₀.2))) ^ 2 := by
  simp only [onLine, crossProduct, Prod.fst_sub, Prod.snd_sub]
  ring

variable [LinearOrder K]

/-- The points are `d` apart. -/
def IsDistance (p q : K × K) (d : K) : Prop := 0 ≤ d ∧ d ^ 2 = (q.1 - p.1) ^ 2 + (q.2 - p.2) ^ 2

/-- The point is `d` away from the line through two points. -/
def IsLineDistance (p l₀ l₁ : K × K) (d : K) : Prop :=
  IsLeast {r | ∃ t, IsDistance p (onLine l₀ l₁ t) r} d

variable [IsStrictOrderedRing K] {p q l₀ l₁ : K × K} {d : K}

/-- Two points are apart if they are not the same. -/
theorem IsDistance.pos (h : IsDistance p q d) (hne : p ≠ q) : 0 < d := by
  obtain ⟨hd, hsquare⟩ := h
  refine hd.lt_of_ne fun hzero => hne ?_
  rw [← hzero, zero_pow two_ne_zero, eq_comm,
    add_eq_zero_iff_of_nonneg (sq_nonneg _) (sq_nonneg _)] at hsquare
  have first := sub_eq_zero.mp (pow_eq_zero_iff two_ne_zero |>.mp hsquare.1)
  have second := sub_eq_zero.mp (pow_eq_zero_iff two_ne_zero |>.mp hsquare.2)
  exact Prod.ext first.symm second.symm

/-- **The distance from a line** is the cross product, without its sign, over the length of the
    line's direction. -/
theorem isLineDistance_div {base height : K} (hne : l₀ ≠ l₁) (hbase : IsDistance l₀ l₁ base)
    (hheight : 0 ≤ height) (hsquare : height ^ 2 = crossProduct (l₁ - l₀) (p - l₀) ^ 2) :
    IsLineDistance p l₀ l₁ (height / base) := by
  have pos := hbase.pos hne
  have along := squared_onLine p l₀ l₁
  rw [← hbase.2, ← hsquare] at along
  constructor
  · -- the foot of the perpendicular
    have foot := along (((p.1 - l₀.1) * (l₁.1 - l₀.1) + (p.2 - l₀.2) * (l₁.2 - l₀.2)) / base ^ 2)
    rw [div_mul_cancel₀ _ (pow_ne_zero 2 pos.ne'), sub_self, zero_pow two_ne_zero, add_zero] at foot
    exact ⟨_, div_nonneg hheight pos.le, by rw [div_pow, ← foot, mul_div_cancel_right₀ _
      (pow_ne_zero 2 pos.ne')]⟩
  · rintro r ⟨t, hr, hrsquare⟩
    have le : height ^ 2 ≤ (r * base) ^ 2 := by
      rw [mul_pow, hrsquare, along t]
      exact le_add_of_nonneg_right (sq_nonneg _)
    rw [div_le_iff₀ pos]
    exact (pow_le_pow_iff_left₀ hheight (mul_nonneg hr pos.le) two_ne_zero).mp le

end Field

/-! ### Roots -/

section Roots

variable {K : Type} [ExactScalar K] [LinearOrder K] [IsStrictOrderedRing K] [ExactRoots K]
  {p q l₀ l₁ : K × K} {d : K}

/-- The root of a number is what is not negative and has the number as its square. -/
theorem sqrt_eq_iff {x y : K} (hx : 0 ≤ x) : Scalar.sqrt x = y ↔ 0 ≤ y ∧ y ^ 2 = x := by
  have nonneg := ExactRoots.sqrt_nonneg x hx
  have square := ExactRoots.sq_sqrt x hx
  constructor
  · rintro rfl
    exact ⟨nonneg, square⟩
  · rintro ⟨hy, hsquare⟩
    exact (pow_left_inj₀ nonneg hy two_ne_zero).mp (square.trans hsquare.symm)

theorem isDistance_iff :
    IsDistance p q d ↔ Scalar.sqrt ((q.1 - p.1) ^ 2 + (q.2 - p.2) ^ 2) = d :=
  (sqrt_eq_iff (add_nonneg (sq_nonneg _) (sq_nonneg _))).symm

/-- The distance from a line through two points is twice the area of a triangle, divided by the
    length of its side. -/
theorem isLineDistance_iff (hne : l₀ ≠ l₁) :
    IsLineDistance p l₀ l₁ d ↔
      Scalar.sqrt (crossProduct (l₁ - l₀) (p - l₀) ^ 2) /
        Scalar.sqrt ((l₁.1 - l₀.1) ^ 2 + (l₁.2 - l₀.2) ^ 2) = d := by
  obtain ⟨hheight, hsquare⟩ := (sqrt_eq_iff (sq_nonneg (crossProduct (l₁ - l₀) (p - l₀)))).mp rfl
  have least := isLineDistance_div hne (isDistance_iff.mpr rfl) hheight hsquare
  constructor
  · exact fun h => least.unique h
  · rintro rfl
    exact least

end Roots

end Drafting
