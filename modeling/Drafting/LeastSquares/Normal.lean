import Drafting.Linear.Solve
import Drafting.Dual.Basic

namespace Drafting

/-!
# Normal equations

A linearized system has a residual for each equation and, in the row of the Jacobian that belongs
to the equation, the slopes of the residual along the variables.  From these come the total error,
half the sum of the squared residuals, and the normal equations of a damped step.
-/

variable {F : Type} [Scalar F] {m n : Nat}

/-! ### Sums of squares

The sum runs in eight lanes side by side over full blocks of eight numbers; then the lanes are
added up in pairs, and the numbers left over one by one. -/

/-- Eight running sums. -/
structure Lanes (F : Type) where
  (s0 s1 s2 s3 s4 s5 s6 s7 : F)

namespace Lanes

/-- All lanes at zero. -/
def zero : Lanes F :=
  ⟨Scalar.zero, Scalar.zero, Scalar.zero, Scalar.zero,
    Scalar.zero, Scalar.zero, Scalar.zero, Scalar.zero⟩

/-- The lanes after all full blocks, and the numbers left over. -/
def addBlocks (l : Lanes F) : List F → Lanes F × List F
  | x0 :: x1 :: x2 :: x3 :: x4 :: x5 :: x6 :: x7 :: rest =>
    addBlocks
      ⟨l.s0 + x0 * x0, l.s1 + x1 * x1, l.s2 + x2 * x2, l.s3 + x3 * x3,
        l.s4 + x4 * x4, l.s5 + x5 * x5, l.s6 + x6 * x6, l.s7 + x7 * x7⟩ rest
  | rest => (l, rest)

/-- The lanes added up, lane `i` with lane `i + 4`. -/
def total (l : Lanes F) : F :=
  Scalar.zero + (l.s0 + l.s4) + (l.s1 + l.s5) + (l.s2 + l.s6) + (l.s3 + l.s7)

end Lanes

/-- The sum of the squares of a list. -/
def sumSquares (xs : List F) : F :=
  let (lanes, rest) := Lanes.zero.addBlocks xs
  rest.foldl (fun s x => s + x * x) lanes.total

/-- Half the sum of the squares: the error that the solver makes small. -/
def totalError (residuals : List F) : F := Scalar.half * sumSquares residuals

/-! ### Linearized systems -/

/-- The residuals of `m` equations at a point, and their slopes along the `n` variables.  It serves
    as a buffer: what is not written keeps what it was. -/
structure Linearization (F : Type) (m n : Nat) where
  residuals : Vector F m
  jacobian : Mat F m n

namespace Linearization

/-- A buffer before anything is written to it. -/
def blank : Linearization F m n :=
  ⟨Vector.replicate m Scalar.zero, Vector.replicate m (Vector.replicate n Scalar.zero)⟩

/-- Writes a dual number to the row of equation `i`: its value, and its partials as far as it has
    any. -/
def write (l : Linearization F m n) (i : Fin m) (d : Dual F) : Linearization F m n where
  residuals := l.residuals.set i d.value i.isLt
  jacobian := l.jacobian.set i
    (Vector.ofFn fun j => d.partials[(j : Nat)]?.getD (l.jacobian.entry i j)) i.isLt

/-- The total error of the residuals. -/
def error (l : Linearization F m n) : F := totalError l.residuals.toList

/-- Are all slopes below epsilon? -/
def isFlat (epsilon : F) (l : Linearization F m n) : Bool :=
  l.jacobian.all fun row => row.all fun d => Scalar.less (Scalar.abs d) epsilon

end Linearization

/-! ### Steps -/

/-- The sum of a list, added up from the left. -/
def sumFrom (xs : List F) : F := xs.foldl (· + ·) Scalar.zero

/-- The equations for the best step of the linearized system, before damping. -/
structure NormalEquations (F : Type) (n : Nat) where
  matrix : Mat F n n
  gradient : Vector F n

namespace NormalEquations

/-- Normal equations with nothing but zeros. -/
def blank : NormalEquations F n :=
  ⟨Vector.replicate n (Vector.replicate n Scalar.zero), Vector.replicate n Scalar.zero⟩

/-- `Jᵗ J` and `Jᵗ r` for the Jacobian `J` and the residuals `r`. -/
def ofLinearization (l : Linearization F m n) : NormalEquations F n where
  matrix := Mat.ofFn fun i j =>
    sumFrom (List.ofFn fun k => l.jacobian.entry k i * l.jacobian.entry k j)
  gradient := Vector.ofFn fun i =>
    sumFrom (List.ofFn fun k => l.jacobian.entry k i * l.residuals.get k)

/-- The step for the damping `damping`. -/
def solve (e : NormalEquations F n) (damping : F) : Vector F n :=
  (e.matrix.addDiagonal damping).solve e.gradient

end NormalEquations

end Drafting
