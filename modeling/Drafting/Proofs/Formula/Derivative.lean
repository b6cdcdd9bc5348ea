import Drafting.Proofs.Exact.Field
import Drafting.Proofs.Dual.Elementary

namespace Drafting

/-!
# Derivatives of formulas

The derivative of a formula is another formula, by the textbook rules.

* `Formula.valueAt` — the value of a formula at a point;
* `Formula.derivative` — the partial derivative of a formula;
* `Formula.valueAt_functionDerivative` — the derivative of a function has the value of its slope, by
  which partials are multiplied;
* `Formula.Regular` — exponents are whole and no divisor is zero.
-/

section Symbolic

variable {F : Type} [Scalar F]

/-- The operator on plain numbers. -/
def Operator.real : Operator → F → F → F
  | .add, x, y => x + y
  | .sub, x, y => x - y
  | .mul, x, y => x * y
  | .div, x, y => x / y
  | .pow, x, y => Scalar.pow x y

/-- The function of a formula. -/
def Function.of (f : Function) (u : Formula F) : Formula F := .call f.name [u]

omit [Scalar F] in
/-- Calls of functions are told apart by the function and by the argument. -/
@[simp] theorem Function.of_inj {f g : Function} {u v : Formula F} :
    f.of u = g.of v ↔ f = g ∧ u = v := by
  constructor
  · intro h
    obtain ⟨name, args⟩ := Formula.call.inj h
    have same := congrArg ofName? name
    rw [f.ofName?_name, g.ofName?_name] at same
    exact ⟨Option.some.inj same, List.singleton_inj.mp args⟩
  · rintro ⟨rfl, rfl⟩
    rfl

/-- The derivative of a function at the formula `u`. -/
def Function.derivative (f : Function) (u : Formula F) : Formula F :=
  let one : Formula F := .number Scalar.one
  let two : Formula F := .number (Scalar.ofNat 2)
  match f with
  | sin => cos.of u
  | cos => neg.of (sin.of u)
  | tan => .binary .div one (.binary .mul (cos.of u) (cos.of u))
  | asin => .binary .div one (sqrt.of (.binary .sub one (.binary .mul u u)))
  | acos => neg.of (.binary .div one (sqrt.of (.binary .sub one (.binary .mul u u))))
  | atan => .binary .div one (.binary .add one (.binary .mul u u))
  | exp => exp.of u
  | sqrt => .binary .div one (.binary .mul two (sqrt.of u))
  | log => .binary .div one u
  | neg => neg.of one

namespace Formula

/-- The value of a formula at a point.  Calls that have no meaning count as zero. -/
def valueAt (point : String → F) : Formula F → F
  | .number x => x
  | .symbol name => point name
  | .binary op l r => op.real (l.valueAt point) (r.valueAt point)
  | .call name args =>
    match Function.ofName? name, args with
    | some f, [a] => f.real (a.valueAt point)
    | _, _ => Scalar.zero

/-- The partial derivative of a formula with respect to the variable that the names in `isVariable`
    stand for.  The rule for powers is the one for constant exponents. -/
def derivative (isVariable : String → Bool) : Formula F → Formula F
  | .number _ => .number Scalar.zero
  | .symbol name => .number (if isVariable name then Scalar.one else Scalar.zero)
  | .binary .add l r => .binary .add (l.derivative isVariable) (r.derivative isVariable)
  | .binary .sub l r => .binary .sub (l.derivative isVariable) (r.derivative isVariable)
  | .binary .mul l r =>
    .binary .add (.binary .mul (l.derivative isVariable) r)
      (.binary .mul l (r.derivative isVariable))
  | .binary .div l r =>
    .binary .div
      (.binary .sub (.binary .mul (l.derivative isVariable) r)
        (.binary .mul l (r.derivative isVariable)))
      (.binary .mul r r)
  | .binary .pow l r =>
    .binary .mul (.binary .mul r (.binary .pow l (.binary .sub r (.number Scalar.one))))
      (l.derivative isVariable)
  | .call name args =>
    match Function.ofName? name, args with
    | some f, [a] => .binary .mul (f.derivative a) (a.derivative isVariable)
    | _, _ => .number Scalar.zero

/-- A formula stands in another, at one of its nodes. -/
inductive Part (s : Formula F) : Formula F → Prop where
  | refl : Part s s
  | left {op l r} : Part s l → Part s (.binary op l r)
  | right {op l r} : Part s r → Part s (.binary op l r)
  | argument {name args a} : a ∈ args → Part s a → Part s (.call name args)

omit [Scalar F] in
/-- A part of a part is a part. -/
theorem Part.trans {s t e : Formula F} (hst : Part s t) (hte : Part t e) : Part s e := by
  induction hte with
  | refl => exact hst
  | left _ ih => exact .left ih
  | right _ ih => exact .right ih
  | argument ha _ ih => exact .argument ha ih

section

variable {s l r a : Formula F} {op : Operator} {f : Function}

omit [Scalar F]

@[simp] theorem part_number {x : F} : Part s (.number x) ↔ s = .number x :=
  ⟨fun h => by cases h; rfl, fun h => h ▸ .refl⟩

@[simp] theorem part_symbol {name : String} : Part s (.symbol name) ↔ s = .symbol name :=
  ⟨fun h => by cases h; rfl, fun h => h ▸ .refl⟩

/-- The parts of an operation are the operation itself and the parts of its operands. -/
@[simp] theorem part_binary :
    Part s (.binary op l r) ↔ s = .binary op l r ∨ Part s l ∨ Part s r := by
  constructor
  · rintro (_ | h | h)
    · exact .inl rfl
    · exact .inr (.inl h)
    · exact .inr (.inr h)
  · rintro (rfl | h | h)
    · exact .refl
    · exact .left h
    · exact .right h

/-- The parts of a call are the call itself and the parts of its arguments. -/
@[simp] theorem part_call {name : String} {args : List (Formula F)} :
    Part s (.call name args) ↔ s = .call name args ∨ ∃ a ∈ args, Part s a := by
  constructor
  · rintro (_ | _ | _ | ⟨ha, h⟩)
    · exact .inl rfl
    · exact .inr ⟨_, ha, h⟩
  · rintro (rfl | ⟨a, ha, h⟩)
    · exact .refl
    · exact .argument ha h

@[simp] theorem part_of : Part s (f.of a) ↔ s = f.of a ∨ Part s a := by
  simp [Function.of]

end

/-- No name stands in the formula. -/
def VariableFree (e : Formula F) : Prop := ∀ name, ¬ Part (.symbol name) e

end Formula

/-- The divisor in the derivative of a function. -/
def Function.divisor : Function → F → F
  | tan, x => Scalar.cos x * Scalar.cos x
  | asin, x | acos, x => Scalar.sqrt (Scalar.one - x * x)
  | atan, x => Scalar.one + x * x
  | sqrt, x => Scalar.sqrt x
  | log, x => x
  | sin, _ | cos, _ | exp, _ | neg, _ => Scalar.one

/-- Plain numbers have a plain result. -/
theorem Operator.apply_numbers (op : Operator) (a b : F) :
    ∃ x, op.apply (.number a) (.number b) = .ok (.number x) := by
  cases op <;> exact ⟨_, rfl⟩

end Symbolic

namespace Formula

variable {K : Type} [ExactScalar K] {point : String → K} {e s : Formula K}

/-! ### Values of derivatives -/

@[simp] theorem valueAt_number (x : K) : (number x).valueAt point = x := rfl

@[simp] theorem valueAt_binary (op : Operator) (l r : Formula K) :
    (binary op l r).valueAt point = op.real (l.valueAt point) (r.valueAt point) := rfl

@[simp] theorem valueAt_of (f : Function) (u : Formula K) :
    (f.of u).valueAt point = f.real (u.valueAt point) := by
  rw [Function.of, valueAt.eq_def]
  simp only [f.ofName?_name]

/-- The derivative of a function has the value of its slope. -/
theorem valueAt_functionDerivative [CharZero K] (f : Function) (u : Formula K)
    (h : f.divisor (u.valueAt point) ≠ 0) :
    (f.derivative u).valueAt point = f.slope (u.valueAt point) := by
  cases f with
  | sin | cos | exp | neg | atan =>
    simp [Function.derivative, Operator.real, Function.real, Function.slope]
  | tan | asin | acos | log =>
    simp only [Function.divisor, ExactScalar.one_eq] at h
    simp [Function.derivative, Operator.real, Function.real, Function.slope,
      ExactScalar.slope_eq _ h, neg_div]
  | sqrt =>
    simp only [Function.divisor] at h
    simp only [Function.derivative, Operator.real, Function.real, Function.slope, valueAt_binary,
      valueAt_number, valueAt_of, ExactScalar.slope_eq _ h, ExactScalar.half_eq, ExactScalar.one_eq,
      ExactScalar.ofNat_eq]
    field_simp
    norm_num

/-- The derivative of a call is that of the function at the argument, times that of the argument. -/
theorem derivative_of (isVariable : String → Bool) (f : Function) (u : Formula K) :
    (f.of u).derivative isVariable =
      .binary .mul (f.derivative u) (u.derivative isVariable) := by
  rw [Function.of, derivative.eq_def]
  simp only [f.ofName?_name]

/-! ### Regular points -/

/-- At the point, powers in the formula are whole and constant, and no divisor is zero: none of a
    quotient, of a negative power, or in the derivative of a function. -/
structure Regular (e : Formula K) (point : String → K) : Prop where
  exponents : ∀ l r, Part (.binary .pow l r) e →
    r.VariableFree ∧ ∃ k : ℤ, r.valueAt point = k ∧ k.natAbs < 2 ^ 64
  quotients : ∀ l r, Part (.binary .div l r) e → r.valueAt point ≠ 0
  bases : ∀ l r, Part (.binary .pow l r) e →
    ∀ k : ℤ, r.valueAt point = k → k < 0 → l.valueAt point ≠ 0
  slopes : ∀ f a, Part (Function.of f a) e → ¬ a.VariableFree → f.divisor (a.valueAt point) ≠ 0

/-- Parts of a regular formula are regular. -/
theorem Regular.part (h : e.Regular point) (hs : Part s e) : s.Regular point where
  exponents l r hp := h.exponents l r (hp.trans hs)
  quotients l r hp := h.quotients l r (hp.trans hs)
  bases l r hp := h.bases l r (hp.trans hs)
  slopes f a hp := h.slopes f a (hp.trans hs)

end Formula

end Drafting
