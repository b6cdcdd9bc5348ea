import Drafting.Proofs.Linear.Solution
import Drafting.Proofs.LeastSquares.Plain

namespace Drafting

/-!
# The normal equations of a damped step

For the Jacobian `J` and the residuals `r`, the step is the solution of `(Jᵗ J + λ I) δ = Jᵗ r`.
With positive damping there is exactly one, whatever the Jacobian is; and along a variable that no
residual depends on it does not move.  If the residuals were what they are taken for, the step would
lower the total error, unless it is zero.

* `Linearization.error_eq` — the total error;
* `NormalEquations.toMatrix_damped`, `NormalEquations.get_gradient` — the two sides;
* `NormalEquations.det_damped_ne_zero` — the matrix is nonsingular;
* `NormalEquations.mulVec_solve`, `NormalEquations.mulVec_eq_iff` — the step is the one solution;
* `NormalEquations.get_solve_eq_zero` — where the step is zero;
* `NormalEquations.decrease_eq`, `NormalEquations.decrease_pos` — what the step takes off the error;
* `Settings.positive_of_validate`, `Settings.validate_default` — valid settings.
-/

open Matrix

variable {K : Type} [ExactScalar K] {m n : Nat}

theorem sumFrom_ofFn (f : Fin n → K) : sumFrom (List.ofFn f) = ∑ i, f i := by
  rw [sumFrom, ExactScalar.zero_eq, ← List.sum_eq_foldl, List.sum_ofFn]

/-- The Jacobian of a linearization. -/
def Linearization.matrix (l : Linearization K m n) : Matrix (Fin m) (Fin n) K :=
  Matrix.of l.jacobian.entry

/-! ### Sums of squares -/

/-- The lanes and the numbers left over make up the sum. -/
theorem Lanes.total_addBlocks (l : Lanes K) (xs : List K) :
    (l.addBlocks xs).1.total + ((l.addBlocks xs).2.map fun x => x * x).sum =
      l.total + (xs.map fun x => x * x).sum := by
  induction l, xs using Lanes.addBlocks.induct with
  | case1 l x0 x1 x2 x3 x4 x5 x6 x7 rest ih =>
    rw [addBlocks, ih]
    simp only [total, List.map_cons, List.sum_cons]
    ring
  | case2 l rest h =>
    rw [addBlocks]
    exact h

/-- Squares that are added one after the other, as a sum. -/
theorem foldl_addSquare (xs : List K) (s : K) :
    xs.foldl (fun s x => s + x * x) s = s + (xs.map fun x => x * x).sum := by
  induction xs generalizing s with
  | nil => simp
  | cons x xs ih => rw [List.foldl_cons, ih, List.map_cons, List.sum_cons, add_assoc]

/-- In an exact field it makes no difference that squares are added up in lanes. -/
theorem sumSquares_eq (xs : List K) : sumSquares xs = (xs.map fun x => x * x).sum := by
  have lanes := Lanes.zero.total_addBlocks xs
  have start : (Lanes.zero : Lanes K).total = 0 := by simp [Lanes.zero, Lanes.total]
  rw [start, zero_add] at lanes
  rw [← lanes, sumSquares]
  exact foldl_addSquare _ _

/-- The total error is half the squared length of the residuals. -/
theorem Linearization.error_eq (l : Linearization K m n) :
    l.error = Scalar.half * (l.residuals.get ⬝ᵥ l.residuals.get) := by
  have entries : l.residuals.toList = List.ofFn l.residuals.get := by
    refine List.ext_getElem (by simp) fun i _ _ => ?_
    simp [Vector.get]
  rw [error, totalError, sumSquares_eq, entries, List.map_ofFn, List.sum_ofFn]
  rfl

namespace NormalEquations

variable {l : Linearization K m n} {damping : K}

/-- The damped matrix of the normal equations, as a product of matrices. -/
theorem toMatrix_damped (l : Linearization K m n) (damping : K) :
    ((ofLinearization l).matrix.addDiagonal damping).toMatrix =
      l.matrixᵀ * l.matrix + damping • 1 := by
  ext i j
  have product : (ofLinearization l).matrix.entry i j = (l.matrixᵀ * l.matrix) i j := by
    rw [ofLinearization, Mat.entry_ofFn, sumFrom_ofFn]
    rfl
  rw [Mat.toMatrix, Matrix.of_apply, Mat.addDiagonal, Mat.entry_ofFn, product, Matrix.add_apply,
    Matrix.smul_apply, Matrix.one_apply]
  split <;> simp

/-- The gradient of the normal equations, as a product with the transposed matrix. -/
theorem get_gradient (l : Linearization K m n) :
    (ofLinearization l).gradient.get = l.matrixᵀ *ᵥ l.residuals.get := by
  funext i
  rw [ofLinearization, get_ofFn, sumFrom_ofFn]
  rfl

/-- The damped matrix adds the squared length of a vector's image under the Jacobian to a multiple
    of its own. -/
theorem dotProduct_damped (J : Matrix (Fin m) (Fin n) K) (damping : K) (x : Fin n → K) :
    x ⬝ᵥ ((Jᵀ * J + damping • (1 : Matrix (Fin n) (Fin n) K)) *ᵥ x) =
      (J *ᵥ x) ⬝ᵥ (J *ᵥ x) + damping * (x ⬝ᵥ x) := by
  have square : x ⬝ᵥ (Jᵀ *ᵥ (J *ᵥ x)) = (J *ᵥ x) ⬝ᵥ (J *ᵥ x) := by
    rw [Matrix.dotProduct_mulVec, Matrix.vecMul_transpose]
  rw [Matrix.add_mulVec, Matrix.smul_mulVec, Matrix.one_mulVec, dotProduct_add, dotProduct_smul,
    ← Matrix.mulVec_mulVec, square, smul_eq_mul]

variable [LinearOrder K] [IsStrictOrderedRing K]

theorem dotProduct_self_nonneg (x : Fin n → K) : 0 ≤ x ⬝ᵥ x :=
  Finset.sum_nonneg fun i _ => mul_self_nonneg (x i)

theorem dotProduct_self_pos {x : Fin n → K} (h : x ≠ 0) : 0 < x ⬝ᵥ x :=
  lt_of_le_of_ne (dotProduct_self_nonneg x) fun zero => h (dotProduct_self_eq_zero.mp zero.symm)

/-- **Damped equations are nonsingular.**  A vector that is sent to zero has no length. -/
theorem det_damped_ne_zero (J : Matrix (Fin m) (Fin n) K) (h : 0 < damping) :
    (Jᵀ * J + damping • (1 : Matrix (Fin n) (Fin n) K)).det ≠ 0 := by
  intro singular
  obtain ⟨x, hx, sent⟩ := Matrix.exists_mulVec_eq_zero_iff.mpr singular
  have lengths := dotProduct_damped J damping x
  rw [sent, dotProduct_zero] at lengths
  have image := dotProduct_self_nonneg (J *ᵥ x)
  have own := mul_pos h (dotProduct_self_pos hx)
  linarith

variable [ExactOrder K]

/-- **The step solves the damped equations.** -/
theorem mulVec_solve (l : Linearization K m n) (h : 0 < damping) :
    (l.matrixᵀ * l.matrix + damping • 1) *ᵥ ((ofLinearization l).solve damping).get =
      l.matrixᵀ *ᵥ l.residuals.get := by
  have nonsingular := det_damped_ne_zero l.matrix h
  rw [← toMatrix_damped] at nonsingular ⊢
  rw [← get_gradient]
  exact Factors.toMatrix_mulVec_solve _ _ ((Factors.det_ne_zero_iff _).mp nonsingular)

/-- **Nothing else solves them.** -/
theorem mulVec_eq_iff (l : Linearization K m n) (h : 0 < damping) {x : Fin n → K} :
    (l.matrixᵀ * l.matrix + damping • 1) *ᵥ x = l.matrixᵀ *ᵥ l.residuals.get ↔
      x = ((ofLinearization l).solve damping).get := by
  have injective := Matrix.mulVec_injective_of_isUnit
    ((Matrix.isUnit_iff_isUnit_det _).mpr (det_damped_ne_zero l.matrix h).isUnit)
  rw [← mulVec_solve l h]
  exact injective.eq_iff

/-- The step is zero iff the gradient of the error is. -/
theorem get_solve_eq_zero_iff (l : Linearization K m n) (h : 0 < damping) :
    ((ofLinearization l).solve damping).get = 0 ↔ l.matrixᵀ *ᵥ l.residuals.get = 0 := by
  rw [eq_comm, ← mulVec_eq_iff l h, Matrix.mulVec_zero, eq_comm]

/-- **Where no residual depends on a variable, the step leaves it.**  Its row of the equations says
    that the damping times its entry is zero. -/
theorem get_solve_eq_zero {j : Fin n} (hcolumn : ∀ i, l.jacobian.entry i j = 0) (h : 0 < damping) :
    ((ofLinearization l).solve damping).get j = 0 := by
  have column : l.matrixᵀ j = 0 := funext hcolumn
  have row := congrFun (mulVec_solve l h) j
  rw [Matrix.add_mulVec, Matrix.smul_mulVec, Matrix.one_mulVec, ← Matrix.mulVec_mulVec] at row
  have zero_row (y : Fin m → K) : (l.matrixᵀ *ᵥ y) j = 0 := by
    rw [Matrix.mulVec, column, zero_dotProduct]
  rw [Pi.add_apply, zero_row, zero_row, zero_add, Pi.smul_apply, smul_eq_mul] at row
  exact (mul_eq_zero.mp row).resolve_left h.ne'

/-! ### What a step takes off the error -/

/-- **The linear model of a step.**  If the residuals changed along the step as the Jacobian says,
    half their squared length would fall by that of what the step takes off them, and by a multiple
    of the squared length of the step. -/
theorem decrease_eq (l : Linearization K m n) (h : 0 < damping) :
    let r := l.residuals.get
    let d := ((ofLinearization l).solve damping).get
    r ⬝ᵥ r / 2 - (r - l.matrix *ᵥ d) ⬝ᵥ (r - l.matrix *ᵥ d) / 2 =
      (l.matrix *ᵥ d) ⬝ᵥ (l.matrix *ᵥ d) / 2 + damping * (d ⬝ᵥ d) := by
  intro r d
  have along : r ⬝ᵥ (l.matrix *ᵥ d) =
      (l.matrix *ᵥ d) ⬝ᵥ (l.matrix *ᵥ d) + damping * (d ⬝ᵥ d) := by
    calc r ⬝ᵥ (l.matrix *ᵥ d)
        = d ⬝ᵥ (l.matrixᵀ *ᵥ r) := by
          rw [Matrix.dotProduct_mulVec, ← Matrix.mulVec_transpose, dotProduct_comm]
      _ = _ := by rw [← mulVec_solve l h, dotProduct_damped]
  rw [sub_dotProduct, dotProduct_sub, dotProduct_sub, dotProduct_comm (l.matrix *ᵥ d) r, along]
  ring

/-- **A step takes something off the error**, unless it is zero. -/
theorem decrease_pos (l : Linearization K m n) (h : 0 < damping)
    (slope : l.matrixᵀ *ᵥ l.residuals.get ≠ 0) :
    let d := ((ofLinearization l).solve damping).get
    0 < (l.matrix *ᵥ d) ⬝ᵥ (l.matrix *ᵥ d) / 2 + damping * (d ⬝ᵥ d) := by
  intro d
  have moves : d ≠ 0 := fun zero => slope ((get_solve_eq_zero_iff l h).mp zero)
  have image : 0 ≤ (l.matrix *ᵥ d) ⬝ᵥ (l.matrix *ᵥ d) / 2 :=
    div_nonneg (dotProduct_self_nonneg _) zero_le_two
  exact add_pos_of_nonneg_of_pos image (mul_pos h (dotProduct_self_pos moves))

end NormalEquations

/-! ### Settings -/

/-- Valid settings start with positive damping, and change it by positive factors. -/
theorem Settings.positive_of_validate [LinearOrder K] [IsStrictOrderedRing K] [ExactOrder K]
    {settings : Settings K} (h : settings.validate = .ok ()) :
    0 < settings.initialDamping ∧ 0 < settings.raise ∧ 0 < settings.lower := by
  obtain ⟨-, damping, raise, lower⟩ := of_validate h
  rw [ExactOrder.less_iff, ExactScalar.zero_eq] at damping
  rw [ExactOrder.less_iff, ExactScalar.one_eq] at raise lower
  exact ⟨damping, one_pos.trans raise, one_pos.trans lower⟩

/-- Default settings are valid, with any limit that leaves room for a step. -/
theorem Settings.validate_default [LinearOrder K] [IsStrictOrderedRing K] [ExactOrder K]
    {limit : Option Nat} (h : limit ≠ some 0) :
    ({ Settings.default with maxSteps := limit } : Settings K).validate = .ok () := by
  have epsilon : (0 : K) < Settings.defaultEpsilon := by
    rw [Settings.defaultEpsilon, ExactScalar.ofDecimal_eq]
    positivity
  have factor : (1 : K) < 10 := by norm_num
  simp [Settings.validate, Settings.default, Bool.eq_false_iff, ExactOrder.less_iff, epsilon,
    factor, h]

end Drafting
