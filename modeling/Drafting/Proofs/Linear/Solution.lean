import Drafting.Proofs.Exact.Real
import Drafting.Proofs.Linear.Substitution

namespace Drafting.Factors

/-!
# Nonsingular systems are solved

* `Factors.toMatrix_mulVec_solve` — the two triangular systems, put together;
* `Factors.solveList_of_nonsingular` — the solution of a nonsingular system.
-/

variable {K : Type} [ExactScalar K] [LinearOrder K] [IsStrictOrderedRing K] [ExactOrder K] {n : Nat}

/-- Without a zero pivot, what comes out solves the system. -/
theorem toMatrix_mulVec_solve (a : Mat K n n) (b : Vector K n) (pivots : ∀ k, pivot a k ≠ 0) :
    a.toMatrix.mulVec ((ofSquare a).solve b).get = b.get := by
  have diagonal : ∀ k, (ofSquare a).packed.entry k k ≠ 0 := fun k => by
    rw [entry_ofSquare_diagonal]
    exact pivots k
  have exchanged : (a.toMatrix.submatrix (arrangement (ofSquare a).pivots n) id).mulVec
      ((ofSquare a).solve b).get = ((ofSquare a).exchange b n).get := by
    rw [← lower_mul_upper, ← Matrix.mulVec_mulVec, solve, upper_mulVec_backward diagonal,
      forward_eq _ b (le_pivots a) le_rfl, lower_mulVec_lowerSolve]
  funext i
  -- the row that the exchanges bring to place `j` is row `i`
  obtain ⟨j, rfl⟩ := (arrangement (ofSquare a).pivots n).surjective i
  have row := congrFun exchanged j
  rw [get_exchange _ b le_rfl] at row
  exact row

/-- **Nonsingular systems are solved.**  Elimination and back substitution divide by nonzero pivots
    only, and the answer is the one solution of the system. -/
theorem solveList_of_nonsingular (a : Mat K n n) (b : Vector K n) (ha : a.toMatrix.det ≠ 0) :
    ∃ f x, ofMat a = .ok f ∧ f.solveList b.toList = .ok x ∧
      (∀ k, pivot a k ≠ 0) ∧ (∀ k, f.packed.entry k k ≠ 0) ∧
      a.toMatrix.mulVec x.get = b.get ∧
      ∀ x' : Vector K n, a.toMatrix.mulVec x'.get = b.get → x' = x := by
  have pivots := (det_ne_zero_iff a).mp ha
  have solves := toMatrix_mulVec_solve a b pivots
  refine ⟨ofSquare a, (ofSquare a).solve b, ?_, ?_, pivots, fun k => ?_, solves, fun x' hx' => ?_⟩
  · rw [ofMat, dif_pos rfl]
  · rw [solveList, ofListExact?_eq_some.mpr rfl]
  · rw [entry_ofSquare_diagonal]
    exact pivots k
  · have injective := Matrix.mulVec_injective_of_isUnit
      ((Matrix.isUnit_iff_isUnit_det a.toMatrix).mpr ha.isUnit)
    exact ext_get (congrFun (injective (hx'.trans solves.symm)))

/-- A matrix whose first step has to exchange rows. -/
def zeroCorner : Mat ℝ 3 3 := Mat.ofFn !![0, 2, 1; 1, 1, 1; 2, 1, 3]

/-- Three equations with a zero where elimination starts, and their solution. -/
theorem solveList_of_nonsingular_zeroCorner :
    zeroCorner.toMatrix.det ≠ 0 ∧
      ∃ f x, ofMat zeroCorner = .ok f ∧ f.solveList [-1, 2, 9] = .ok x ∧
        (∀ k, pivot zeroCorner k ≠ 0) ∧ x = #v[1, -2, 3] := by
  have entries : zeroCorner.toMatrix = !![0, 2, 1; 1, 1, 1; 2, 1, 3] := by
    ext i j
    exact Mat.entry_ofFn _ i j
  have nonsingular : zeroCorner.toMatrix.det ≠ 0 := by
    rw [entries]
    simp [Matrix.det_fin_three]
    norm_num
  obtain ⟨f, x, hf, hx, pivots, -, -, unique⟩ :=
    solveList_of_nonsingular zeroCorner #v[-1, 2, 9] nonsingular
  refine ⟨nonsingular, f, x, hf, hx, pivots, (unique #v[1, -2, 3] ?_).symm⟩
  have answer : (#v[1, -2, 3] : Vector ℝ 3).get = ![1, -2, 3] := by
    funext i
    fin_cases i <;> rfl
  have given : (#v[-1, 2, 9] : Vector ℝ 3).get = ![-1, 2, 9] := by
    funext i
    fin_cases i <;> rfl
  rw [entries, answer, given]
  funext i
  fin_cases i <;> simp [Matrix.mulVec, dotProduct, Fin.sum_univ_three] <;> norm_num

end Drafting.Factors
