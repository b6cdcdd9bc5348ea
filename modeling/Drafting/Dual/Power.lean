import Drafting.Dual.Arithmetic

namespace Drafting

/-!
# Powers with derivatives

A power of plain numbers is left to the scalars.  A power of a dual needs a whole plain exponent
and is multiplied out by repeated squaring, after taking the reciprocal if the exponent is
negative.  An exponent that is a dual is refused even if its base is a plain number.
-/

/-- Why a power has no value. -/
inductive PowerError (F : Type) where
  /-- The base depends on a variable and the exponent is not whole. -/
  | fractionalExponent (exponent : F)
  /-- The exponent depends on a variable. -/
  | variableExponent
  deriving Repr, BEq

variable {F : Type} [Scalar F]

/-- The sentence for a failed power. -/
def PowerError.message : PowerError F → String
  | .fractionalExponent e =>
    "exponent " ++ Scalar.text e
      ++ " is not an integer; only integer powers of variables are supported"
  | .variableExponent => "exponents that depend on a variable are not supported"

namespace Value

/-- Multiplies `product` by the `k`-th power of `square`, squaring once for each binary digit of
    `k` but the last. -/
def timesPower (product square : Value F) (k : Nat) : Value F :=
  if k = 0 then product
  else
    let product := if k % 2 = 1 then mul product square else product
    if k / 2 = 0 then product else timesPower product (mul square square) (k / 2)
termination_by k

theorem timesPower_zero (product square : Value F) : timesPower product square 0 = product := by
  rw [timesPower, if_pos rfl]

/-- One binary digit. -/
theorem timesPower_step (product square : Value F) {k : Nat} (h : k ≠ 0) :
    timesPower product square k =
      timesPower (if k % 2 = 1 then mul product square else product) (mul square square)
        (k / 2) := by
  rw [timesPower, if_neg h]
  by_cases last : k / 2 = 0
  · simp only [last, if_true, timesPower_zero]
  · simp only [last, if_false]

/-- The power of a dual to a whole exponent. -/
def wholePower (base : Dual F) (exponent : F) : Value F :=
  let one := .dual (Dual.constant Scalar.one base.partials.length)
  if Scalar.isZero exponent then one
  else
    let factor :=
      if Scalar.less exponent Scalar.zero then div (.number Scalar.one) (.dual base)
      else .dual base
    timesPower one factor (Scalar.wholePart exponent)

/-- `base ^ exponent`. -/
def power : Value F → Value F → Except (PowerError F) (Value F)
  | _, .dual _ => .error .variableExponent
  | .number b, .number e => .ok (.number (Scalar.pow b e))
  | .dual d, .number e =>
    if Scalar.isWhole e then .ok (wholePower d e) else .error (.fractionalExponent e)

end Value

end Drafting
