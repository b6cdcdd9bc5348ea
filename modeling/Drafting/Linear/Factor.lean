import Drafting.Linear.Mat
import Drafting.Scalar

namespace Drafting

/-!
# Factors of a square matrix

Gaussian elimination with partial pivoting.  Step `k` looks below the diagonal of column `k` for
the entry of largest absolute value, exchanges its row with row `k`, and clears the column.  The
multipliers are kept in the cleared places, so one square matrix holds both factors: the lower one
strictly below the diagonal, the upper one on and above it.

A zero pivot is not looked for: it shows in a solution as entries that are not finite.
-/

/-- Why a linear problem has no solution to speak of. -/
inductive LinearError where
  | notSquare (rows columns : Nat)
  | lengthMismatch (expected found : Nat)
  deriving DecidableEq, Repr

/-- The sentence for a misshapen problem. -/
def LinearError.message : LinearError → String
  | .notSquare rows columns =>
    "LU factorization needs a square matrix, got " ++ toString rows ++ "x" ++ toString columns
  | .lengthMismatch expected found =>
    "Right-hand side has length " ++ toString found ++ ", expected " ++ toString expected

/-- Both factors in one matrix, and for each step the row that was exchanged with the row of the
    step. -/
structure Factors (F : Type) (n : Nat) where
  packed : Mat F n n
  pivots : Vector (Fin n) n

variable {F : Type} [Scalar F] {n : Nat}

namespace Mat

/-- The first row, from row `k` on, whose entry in column `k` is largest in absolute value. -/
def pivotRow (a : Mat F n n) (k : Fin n) : Fin n :=
  (indices (k < ·)).foldl
    (fun best j =>
      if Scalar.less (Scalar.abs (a.entry best k)) (Scalar.abs (a.entry j k)) then j else best)
    k

/-- Subtracts multiples of row `k` from the rows below it; the multipliers stay in column `k`. -/
def eliminate (a : Mat F n n) (k : Fin n) : Mat F n n :=
  Vector.ofFn fun i =>
    if k < i then
      let factor := a.entry i k / a.entry k k
      Vector.ofFn fun j =>
        if j < k then a.entry i j
        else if j = k then factor
        else a.entry i j - factor * a.entry k j
    else a.get i

/-- The entries after a step of elimination. -/
theorem entry_eliminate (a : Mat F n n) (k i j : Fin n) :
    (a.eliminate k).entry i j =
      if k < i then
        if j < k then a.entry i j
        else if j = k then a.entry i k / a.entry k k
        else a.entry i j - a.entry i k / a.entry k k * a.entry k j
      else a.entry i j := by
  by_cases h : k < i <;> simp [eliminate, entry, h]

end Mat

namespace Factors

/-- Step `k`: exchange, then eliminate. -/
def step (f : Factors F n) (k : Fin n) : Factors F n :=
  let p := f.packed.pivotRow k
  ⟨(f.packed.swapRows k p).eliminate k, f.pivots.set k p k.isLt⟩

/-- What elimination has reached after the first `k` steps. -/
def afterSteps (a : Mat F n n) : (k : Nat) → Factors F n
  | 0 => ⟨a, Vector.ofFn id⟩
  | k + 1 => if h : k < n then (afterSteps a k).step ⟨k, h⟩ else afterSteps a k

/-- The factors of a square matrix. -/
def ofSquare (a : Mat F n n) : Factors F n := afterSteps a n

/-- The factors of a matrix, which has to be square. -/
def ofMat {m : Nat} (a : Mat F m n) : Except LinearError (Factors F m) :=
  if h : n = m then .ok (ofSquare (h ▸ a)) else .error (.notSquare m n)

end Factors

end Drafting
