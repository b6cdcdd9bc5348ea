import Drafting.Linear.Factor

namespace Drafting

/-!
# Solving with factors

The right-hand side goes through the recorded exchanges and the lower factor row by row, then
through the upper factor from the last row up.
-/

variable {F : Type} [Scalar F] {n : Nat}

namespace Factors

/-- Entry `i` of `x`, less the products of the entries at `js` with the factors in row `i`. -/
def residue (f : Factors F n) (x : Vector F n) (i : Fin n) (js : List (Fin n)) : F :=
  js.foldl (fun s j => s - x.get j * f.packed.entry i j) (x.get i)

/-- Row `i` of forward substitution: its exchange, then the lower factor. -/
def forwardStep (f : Factors F n) (x : Vector F n) (i : Fin n) : Vector F n :=
  let x := x.swap i (f.pivots.get i) i.isLt (f.pivots.get i).isLt
  x.set i (f.residue x i (indices (· < i))) i.isLt

/-- Forward substitution in the first `k` rows. -/
def forward (f : Factors F n) (b : Vector F n) : (k : Nat) → Vector F n
  | 0 => b
  | k + 1 => if h : k < n then f.forwardStep (f.forward b k) ⟨k, h⟩ else f.forward b k

/-- Row `i` of back substitution. -/
def backwardStep (f : Factors F n) (x : Vector F n) (i : Fin n) : Vector F n :=
  x.set i (f.residue x i (indices (i < ·)) / f.packed.entry i i) i.isLt

/-- Back substitution in the first `k` rows, the last of them first. -/
def backward (f : Factors F n) : (k : Nat) → Vector F n → Vector F n
  | 0, x => x
  | k + 1, x => f.backward k (if h : k < n then f.backwardStep x ⟨k, h⟩ else x)

/-- The solution for the right-hand side `b`. -/
def solve (f : Factors F n) (b : Vector F n) : Vector F n := f.backward n (f.forward b n)

/-- The solution for a right-hand side, which has to be as long as the matrix is wide. -/
def solveList (f : Factors F n) (b : List F) : Except LinearError (Vector F n) :=
  match ofListExact? n b with
  | some b => .ok (f.solve b)
  | none => .error (.lengthMismatch n b.length)

end Factors

/-- Factors a matrix and solves for one right-hand side. -/
def Mat.solve (a : Mat F n n) (b : Vector F n) : Vector F n := (Factors.ofSquare a).solve b

end Drafting
