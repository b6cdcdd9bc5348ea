import Drafting.Proofs.Linear.Elimination

namespace Drafting

/-!
# The factors of a matrix

The packed matrix read as two triangular ones.

* `Factors.lower_mul_upper` — their product is the matrix, with its rows in the order of the
  exchanges;
* `Factors.det_ne_zero_iff` — a matrix is nonsingular iff no pivot is zero.
-/

variable {F : Type} {n : Nat}

/-- The matrix with these entries. -/
def Mat.toMatrix (m : Mat F n n) : Matrix (Fin n) (Fin n) F := Matrix.of m.entry

namespace Factors

variable {K : Type} [ExactScalar K]

/-- The unit lower factor: the multipliers, below ones. -/
def lower (f : Factors K n) : Matrix (Fin n) (Fin n) K := fun i j =>
  if j < i then f.packed.entry i j else if i = j then 1 else 0

/-- The upper factor. -/
def upper (f : Factors K n) : Matrix (Fin n) (Fin n) K := fun i j =>
  if i ≤ j then f.packed.entry i j else 0

/-- Row `i` of the lower system. -/
theorem lower_mulVec (f : Factors K n) (y : Fin n → K) (i : Fin n) :
    f.lower.mulVec y i = ∑ j with j < i, f.packed.entry i j * y j + y i := by
  have split_row (j : Fin n) : f.lower i j * y j =
      (if j < i then f.packed.entry i j * y j else 0) + if i = j then y j else 0 := by
    rw [lower]
    rcases lt_trichotomy j i with h | rfl | h
    · rw [if_pos h, if_pos h, if_neg h.ne', add_zero]
    · rw [if_neg (lt_irrefl j), if_pos rfl, if_neg (lt_irrefl j), if_pos rfl, one_mul, zero_add]
    · rw [if_neg h.not_gt, if_neg h.ne, if_neg h.not_gt, if_neg h.ne, zero_mul, add_zero]
  rw [Matrix.mulVec, dotProduct, Finset.sum_congr rfl fun j _ => split_row j,
    Finset.sum_add_distrib, Finset.sum_ite_eq, if_pos (Finset.mem_univ i), Finset.sum_filter]

/-- Row `i` of the upper system. -/
theorem upper_mulVec (f : Factors K n) (x : Fin n → K) (i : Fin n) :
    f.upper.mulVec x i =
      ∑ j with i < j, f.packed.entry i j * x j + f.packed.entry i i * x i := by
  have split_row (j : Fin n) : f.upper i j * x j =
      (if i < j then f.packed.entry i j * x j else 0) +
        if i = j then f.packed.entry i j * x j else 0 := by
    rw [upper]
    rcases lt_trichotomy i j with h | rfl | h
    · rw [if_pos h.le, if_pos h, if_neg h.ne, add_zero]
    · rw [if_pos le_rfl, if_neg (lt_irrefl i), if_pos rfl, zero_add]
    · rw [if_neg h.not_ge, if_neg h.not_gt, if_neg h.ne', zero_mul, add_zero]
  rw [Matrix.mulVec, dotProduct, Finset.sum_congr rfl fun j _ => split_row j,
    Finset.sum_add_distrib, Finset.sum_ite_eq, if_pos (Finset.mem_univ i), Finset.sum_filter]

/-- The product read off the packed matrix is that of the two factors. -/
theorem productAt_eq_mul (f : Factors K n) (i j : Fin n) :
    f.packed.productAt n i j = (f.lower * f.upper) i j := by
  have upper_eq (l : Fin n) : f.packed.upperAt n l j = f.upper l j := by
    by_cases h : l ≤ j
    · rw [Mat.upperAt, if_neg (fun hj => h.not_gt hj.1), upper, if_pos h]
    · rw [Mat.upperAt, if_pos ⟨not_le.mp h, j.isLt⟩, upper, if_neg h]
  have row : (f.lower * f.upper) i j = f.lower.mulVec (fun l => f.upper l j) i := rfl
  rw [row, lower_mulVec, Mat.productAt, upper_eq]
  simp only [upper_eq, Fin.is_lt, and_true]

/-- The lower factor has ones on the diagonal. -/
theorem det_lower (f : Factors K n) : f.lower.det = 1 := by
  have triangular : f.lower.IsLowerTriangular := fun i j h => by
    have h : i < j := h
    rw [lower, if_neg h.not_gt, if_neg h.ne]
  rw [Matrix.det_of_isLowerTriangular _ triangular]
  exact Finset.prod_eq_one fun i _ => by rw [lower, if_neg (lt_irrefl i), if_pos rfl]

/-- The determinant of the upper factor is the product of its diagonal. -/
theorem det_upper (f : Factors K n) : f.upper.det = ∏ i, f.packed.entry i i := by
  have triangular : f.upper.IsUpperTriangular := fun i j h => by
    have h : j < i := h
    rw [upper, if_neg h.not_ge]
  rw [Matrix.det_of_isUpperTriangular triangular]
  exact Finset.prod_congr rfl fun i _ => by rw [upper, if_pos le_rfl]

variable [LinearOrder K] [IsStrictOrderedRing K] [ExactOrder K]

/-- **The factors of a matrix** multiply out to it, with its rows in the order of the exchanges. -/
theorem lower_mul_upper (a : Mat K n n) :
    (ofSquare a).lower * (ofSquare a).upper =
      a.toMatrix.submatrix (arrangement (ofSquare a).pivots n) id := by
  ext i j
  rw [← productAt_eq_mul, ofSquare, productAt_afterSteps a le_rfl]
  rfl

/-- A matrix is nonsingular iff elimination meets no zero pivot. -/
theorem det_ne_zero_iff (a : Mat K n n) : a.toMatrix.det ≠ 0 ↔ ∀ k, pivot a k ≠ 0 := by
  have dets := congrArg Matrix.det (lower_mul_upper a)
  rw [Matrix.det_mul, det_lower, det_upper, one_mul, Matrix.det_permute] at dets
  have sign : ((Equiv.Perm.sign (arrangement (ofSquare a).pivots n) : ℤ) : K) ≠ 0 := by
    exact_mod_cast Units.ne_zero _
  have product : ∏ i, (ofSquare a).packed.entry i i ≠ 0 ↔ ∀ k, pivot a k ≠ 0 := by
    simp only [Finset.prod_ne_zero_iff, Finset.mem_univ, true_implies, entry_ofSquare_diagonal]
  rw [← product, dets, mul_ne_zero_iff, and_iff_right sign]

end Factors

end Drafting
