import Drafting.Scalar

namespace Drafting

/-!
# Dual numbers

A dual number is a value together with its partial derivatives, one for each variable in a fixed
order.  The values that formulas compute with are plain numbers, which depend on no variable, or
duals; a plain number becomes a dual when it meets one.
-/

/-- A value and its partial derivatives. -/
structure Dual (F : Type) where
  value : F
  partials : List F
  deriving Repr, BEq

/-- A plain number or a dual. -/
inductive Value (F : Type) where
  | number (x : F)
  | dual (d : Dual F)
  deriving Repr, BEq

variable {F : Type}

namespace Dual

/-- Another value, with all partials multiplied by `factor`. -/
def scale [Mul F] (d : Dual F) (x factor : F) : Dual F :=
  ⟨x, d.partials.map (· * factor)⟩

variable [Scalar F]

/-- A value that depends on none of `count` variables. -/
def constant (x : F) (count : Nat) : Dual F := ⟨x, List.replicate count Scalar.zero⟩

/-- The variable with number `index` out of `count`, at the value `x`: its own partial is one and
    the others are zero. -/
def seed (x : F) (index count : Nat) : Dual F :=
  ⟨x, (List.range count).map fun j => if j = index then Scalar.one else Scalar.zero⟩

@[simp] theorem length_constant (x : F) (count : Nat) :
    (constant x count).partials.length = count := by simp [constant]

@[simp] theorem length_seed (x : F) (index count : Nat) :
    (seed x index count).partials.length = count := by simp [seed]

end Dual

namespace Value

/-- The value without its derivatives. -/
def real : Value F → F
  | .number x => x
  | .dual d => d.value

/-- How many partials the dual among two operands has, the left one if both are duals. -/
def width : Value F → Value F → Nat
  | .dual a, _ => a.partials.length
  | .number _, .dual b => b.partials.length
  | .number _, .number _ => 0

/-- Applies `f`, whose derivative is `df`. -/
def unary [Mul F] (f df : F → F) : Value F → Value F
  | .number x => .number (f x)
  | .dual d => .dual (d.scale (f d.value) (df d.value))

variable [Scalar F]

/-- A plain number becomes a constant of `count` variables; a dual stays what it is. -/
def toDual (count : Nat) : Value F → Dual F
  | .number x => Dual.constant x count
  | .dual d => d

@[simp] theorem value_toDual (v : Value F) (count : Nat) : (v.toDual count).value = v.real := by
  cases v <;> rfl

/-- Applies `f` to two values.  `df a da b db` is the partial of the result where the operands
    `a` and `b` have the partials `da` and `db`; of two lists of partials the shorter counts. -/
def binary (f : F → F → F) (df : F → F → F → F → F) : Value F → Value F → Value F
  | .number a, .number b => .number (f a b)
  | v, w =>
    let a := v.toDual (width v w)
    let b := w.toDual (width v w)
    .dual ⟨f a.value b.value,
      List.zipWith (fun da db => df a.value da b.value db) a.partials b.partials⟩

end Value

end Drafting
