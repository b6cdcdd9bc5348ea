import Drafting.Program.Instruction

namespace Drafting.Function

/-!
# The functions of formulas, one by one

Every function acts on plain numbers in its own way, and multiplies the partials of a dual by its
slope.  `Function.apply_eq` says that this is all there is to a function.
-/

open Scalar

variable {F : Type} [Scalar F]

/-- The function on plain numbers. -/
def real : Function → F → F
  | sin, x => Scalar.sin x
  | cos, x => Scalar.cos x
  | tan, x => Scalar.tan x
  | asin, x => Scalar.asin x
  | acos, x => Scalar.acos x
  | atan, x => Scalar.atan x
  | exp, x => Scalar.exp x
  | sqrt, x => Scalar.sqrt x
  | log, x => Scalar.log x
  | neg, x => -x

/-- The factor that the partials of an argument are multiplied by. -/
def slope : Function → F → F
  | sin, x => Scalar.cos x
  | cos, x => -Scalar.sin x
  | tan, x => Value.slope one (Scalar.cos x * Scalar.cos x)
  | asin, x => Value.slope one (Scalar.sqrt (one - x * x))
  | acos, x => Value.slope (-one) (Scalar.sqrt (one - x * x))
  | atan, x => one / (one + x * x)
  | exp, x => Scalar.exp x
  | sqrt, x => Value.slope half (Scalar.sqrt x)
  | log, x => Value.slope one x
  | neg, _ => -one

/-- A function is what it does to plain numbers, together with its slope. -/
theorem apply_eq (f : Function) (v : Value F) : f.apply v = v.unary f.real f.slope := by
  cases f <;> rfl

end Drafting.Function
