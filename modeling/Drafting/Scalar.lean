namespace Drafting

/-!
# Scalars

Every computation of the library is written over an arbitrary type `F` of scalars, so that the
same definitions run on doubles and can be reasoned about over an exact field.  `Scalar F` lists
what a computation may ask of a scalar: the four operations, the elementary functions, the order
test, the tests that see whether a value is finite or whole, and its decimal reading and writing.

No law is asked for here.  A statement that needs laws names them as hypotheses.
-/

/-- The operations on scalars that formulas, derivatives and solvers are built from. -/
class Scalar (F : Type) extends Add F, Sub F, Mul F, Div F, Neg F where
  /-- `ofDecimal m p` is the value of the numeral `m / 10 ^ p`. -/
  ofDecimal : Nat → Nat → F
  /-- Absolute value. -/
  abs : F → F
  /-- Square root. -/
  sqrt : F → F
  /-- Sine. -/
  sin : F → F
  /-- Cosine. -/
  cos : F → F
  /-- Tangent. -/
  tan : F → F
  /-- Inverse sine. -/
  asin : F → F
  /-- Inverse cosine. -/
  acos : F → F
  /-- Inverse tangent. -/
  atan : F → F
  /-- Exponential. -/
  exp : F → F
  /-- Natural logarithm. -/
  log : F → F
  /-- Power of two plain numbers. -/
  pow : F → F → F
  /-- Strict order test. -/
  less : F → F → Bool
  /-- Does the value equal zero? -/
  isZero : F → Bool
  /-- Is the value neither infinite nor undefined? -/
  isFinite : F → Bool
  /-- Is the value finite and whole? -/
  isWhole : F → Bool
  /-- The whole part of the absolute value, as far as 64 bits reach. -/
  wholePart : F → Nat
  /-- The value in decimal text. -/
  text : F → String

namespace Scalar

variable {F : Type} [Scalar F]

/-- The scalar `n`. -/
def ofNat (n : Nat) : F := ofDecimal n 0

/-- Zero. -/
def zero : F := ofNat 0

/-- One. -/
def one : F := ofNat 1

/-- One half. -/
def half : F := ofDecimal 5 1

/-- Is every scalar of the list finite? -/
def allFinite (xs : List F) : Bool := xs.all isFinite

end Scalar

end Drafting
