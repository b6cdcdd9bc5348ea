import Drafting.Proofs.Exact.Real
import Drafting.Proofs.Linear.Triangular

namespace Drafting

/-!
# The factors reproduce the matrix

The exchanges that elimination records are one permutation matrix, and the factors multiply out to
the given matrix with its rows exchanged by it.  Because a step divides by the largest entry that is
left in its column, no multiplier is larger than one; and a multiplier keeps its size when later
exchanges move it.

* `exchangeMatrix_mul` — exchanges as a matrix;
* `Factors.abs_entry_step_le`, `Factors.abs_entry_afterSteps_le` — multipliers after one step, and
  after all of them;
* `Factors.reproduce` — the factors of a square matrix.
-/

variable {F : Type} {n : Nat}

/-! ### Exchanges as a matrix -/

/-- The exchanges of the first `k` steps, one after the other: the first of them stands last. -/
def exchangeMatrix (K : Type) [Semiring K] (pivots : Vector (Fin n) n) :
    Nat → Matrix (Fin n) (Fin n) K
  | 0 => 1
  | k + 1 =>
    if h : k < n then Matrix.swap K ⟨k, h⟩ (pivots.get ⟨k, h⟩) * exchangeMatrix K pivots k
    else exchangeMatrix K pivots k

/-- Multiplying by the exchanges arranges the rows. -/
theorem exchangeMatrix_mul {K : Type} [Semiring K] (pivots : Vector (Fin n) n)
    (a : Matrix (Fin n) (Fin n) K) (k : Nat) :
    exchangeMatrix K pivots k * a = a.submatrix (arrangement pivots k) id := by
  induction k with
  | zero =>
    rw [exchangeMatrix, arrangement, one_mul]
    rfl
  | succ k ih =>
    by_cases hk : k < n
    · rw [exchangeMatrix, dif_pos hk, Matrix.mul_assoc, ih, Matrix.swap, Equiv.Perm.permMatrix,
        PEquiv.toMatrix_toPEquiv_mul, arrangement_succ pivots ⟨k, hk⟩]
      rfl
    · rw [exchangeMatrix, dif_neg hk, arrangement, dif_neg hk, ih]

namespace Factors

variable {K : Type} [ExactScalar K] [LinearOrder K] [IsStrictOrderedRing K] [ExactOrder K]

/-! ### Multipliers -/

/-- What a step divides by the pivot is no larger than the pivot. -/
theorem abs_multiplier_le (a : Mat K n n) {k i : Fin n} (hi : k < i) :
    |((a.swapRows k (a.pivotRow k)).eliminate k).entry i k| ≤ 1 := by
  rw [Mat.entry_eliminate, if_pos hi, if_neg (lt_irrefl k), if_pos rfl, Mat.entry_swapRows,
    Mat.entry_swapRows, Equiv.swap_apply_left, abs_div]
  have below := le_swap_apply (a.le_pivotRow k) hi.le
  exact div_le_one_of_le₀ (a.abs_entry_le_pivot below) (abs_nonneg _)

/-- **One step** moves the multipliers that there are, and adds those of its column. -/
theorem abs_entry_step_le {f : Factors K n} {k : Fin n}
    (h : ∀ i j : Fin n, j < i → j < k → |f.packed.entry i j| ≤ 1) {i j : Fin n} (hij : j < i)
    (hj : j ≤ k) : |(f.step k).packed.entry i j| ≤ 1 := by
  have below := f.packed.le_pivotRow k
  rcases hj.eq_or_lt with rfl | hlt
  · -- the column of this step
    exact abs_multiplier_le f.packed hij
  · -- a multiplier of an earlier column stays below the diagonal
    have moved : j < Equiv.swap k (f.packed.pivotRow k) i := by
      rcases lt_or_ge i k with hi | hi
      · rwa [swap_apply_above below hi]
      · exact hlt.trans_le (le_swap_apply below hi)
    have kept : (f.step k).packed.entry i j =
        f.packed.entry (Equiv.swap k (f.packed.pivotRow k) i) j := by
      rw [step, Mat.entry_eliminate, if_pos hlt, ite_self, Mat.entry_swapRows]
    rw [kept]
    exact h _ j moved hlt

/-- **All steps.** -/
theorem abs_entry_afterSteps_le (a : Mat K n n) {k : Nat} (hk : k ≤ n) {i j : Fin n} (hij : j < i)
    (hj : j.val < k) : |(afterSteps a k).packed.entry i j| ≤ 1 := by
  induction k generalizing i j with
  | zero => exact absurd hj (Nat.not_lt_zero j)
  | succ k ih =>
    rw [afterSteps_succ a ⟨k, hk⟩]
    exact abs_entry_step_le (fun i j hij hj => ih (Nat.le_of_lt hk) hij hj) hij
      (Nat.le_of_lt_succ hj)

/-- No entry of the lower factor is larger than one. -/
theorem abs_lower_le (a : Mat K n n) (i j : Fin n) : |(ofSquare a).lower i j| ≤ 1 := by
  rw [lower]
  split
  · next hij => exact abs_entry_afterSteps_le a le_rfl hij j.isLt
  split
  · exact abs_one.le
  · exact abs_zero.le.trans zero_le_one

/-! ### The product -/

/-- **The factors reproduce the matrix.**  Elimination meets no zero pivot iff the matrix is
    nonsingular.  Then the lower factor times the upper one is the matrix with its rows exchanged as
    recorded; every step has exchanged its row with one from there on, and no multiplier is larger
    than one. -/
theorem reproduce (a : Mat K n n) :
    ∃ f, ofMat a = .ok f ∧ ((∀ k, pivot a k ≠ 0) ↔ a.toMatrix.det ≠ 0) ∧
      (a.toMatrix.det ≠ 0 →
        exchangeMatrix K f.pivots n * a.toMatrix = f.lower * f.upper ∧
        (∀ k, k ≤ f.pivots.get k ∧ (f.pivots.get k).val < n) ∧
        ∀ i j, |f.lower i j| ≤ 1) := by
  refine ⟨ofSquare a, dif_pos rfl, (det_ne_zero_iff a).symm, fun _ => ⟨?_, fun k => ?_, ?_⟩⟩
  · rw [exchangeMatrix_mul, lower_mul_upper]
  · exact ⟨le_pivots a k, ((ofSquare a).pivots.get k).isLt⟩
  · exact abs_lower_le a

/-- A matrix with the larger entry of its first column below. -/
def largerBelow : Mat ℝ 2 2 := Mat.ofFn !![1, 5; 6, 7]

/-- Two rows that have to be exchanged. -/
theorem reproduce_largerBelow :
    largerBelow.toMatrix.det ≠ 0 ∧ ∃ f, ofMat largerBelow = .ok f ∧
      (∀ k, pivot largerBelow k ≠ 0) ∧
      exchangeMatrix ℝ f.pivots 2 * !![1, 5; 6, 7] = f.lower * f.upper ∧
      (∀ k, k ≤ f.pivots.get k) ∧ ∀ i j, |f.lower i j| ≤ 1 := by
  have entries : largerBelow.toMatrix = !![1, 5; 6, 7] := by
    ext i j
    exact Mat.entry_ofFn _ i j
  have nonsingular : largerBelow.toMatrix.det ≠ 0 := by
    rw [entries, Matrix.det_fin_two_of]
    norm_num
  obtain ⟨f, hf, pivots, product⟩ := reproduce largerBelow
  obtain ⟨product, exchanges, bound⟩ := product nonsingular
  rw [entries] at product
  exact ⟨nonsingular, f, hf, pivots.mpr nonsingular, product, fun k => (exchanges k).1, bound⟩

end Factors

end Drafting
