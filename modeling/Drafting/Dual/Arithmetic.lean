import Drafting.Dual.Basic

namespace Drafting.Value

/-!
# Arithmetic with derivatives

The four operations, negation and the elementary functions on plain numbers and duals, by the
textbook rules.  A divisor that is exactly zero, in a quotient or in a derivative rule, is
replaced by a tiny positive number, so that a solver meets a huge slope instead of an undefined
one.
-/

open Scalar

variable {F : Type} [Scalar F]

/-- What a zero divisor is replaced by. -/
def nudge : F := ofDecimal 1 16

/-- Sum rule. -/
def add (v w : Value F) : Value F := binary (· + ·) (fun _ da _ db => da + db) v w

/-- Difference rule. -/
def sub (v w : Value F) : Value F := binary (· - ·) (fun _ da _ db => da - db) v w

/-- Product rule. -/
def mul (v w : Value F) : Value F := binary (· * ·) (fun a da b db => da * b + a * db) v w

/-- A divisor with its zero replaced; partials stay. -/
def nonzero : Value F → Value F
  | .number b => .number (if isZero b then nudge else b)
  | .dual d => .dual { d with value := if isZero d.value then nudge else d.value }

/-- Quotient rule. -/
def div (v w : Value F) : Value F :=
  binary (· / ·) (fun a da b db => (b * da - a * db) / (b * b)) v (nonzero w)

/-- A quotient of plain numbers whose zero divisor is replaced. -/
def slope (a b : F) : F := if isZero b then a / nudge else a / b

/-- Negation. -/
def neg (v : Value F) : Value F := unary (fun x => -x) (fun _ => -one) v

/-- Sine. -/
def sin (v : Value F) : Value F := unary Scalar.sin Scalar.cos v

/-- Cosine. -/
def cos (v : Value F) : Value F := unary Scalar.cos (fun x => -Scalar.sin x) v

/-- Tangent. -/
def tan (v : Value F) : Value F :=
  unary Scalar.tan (fun x => slope one (Scalar.cos x * Scalar.cos x)) v

/-- Inverse sine. -/
def asin (v : Value F) : Value F :=
  unary Scalar.asin (fun x => slope one (Scalar.sqrt (one - x * x))) v

/-- Inverse cosine. -/
def acos (v : Value F) : Value F :=
  unary Scalar.acos (fun x => slope (-one) (Scalar.sqrt (one - x * x))) v

/-- Inverse tangent. -/
def atan (v : Value F) : Value F := unary Scalar.atan (fun x => one / (one + x * x)) v

/-- Exponential. -/
def exp (v : Value F) : Value F := unary Scalar.exp Scalar.exp v

/-- Square root. -/
def sqrt (v : Value F) : Value F := unary Scalar.sqrt (fun x => slope half (Scalar.sqrt x)) v

/-- Natural logarithm. -/
def log (v : Value F) : Value F := unary Scalar.log (fun x => slope one x) v

end Drafting.Value
