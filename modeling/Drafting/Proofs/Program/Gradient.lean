import Drafting.Proofs.Formula.Derivative
import Drafting.Proofs.Dual.Tangent
import Drafting.Proofs.Exact.Real
import Drafting.Proofs.Program.Interpreter

namespace Drafting

/-!
# Programs compute derivatives

In exact arithmetic a program comes to the value of its formula, and its partials are the values of
the partial derivatives, wherever no divisor is zero.

* `Formula.HasTangent` — the value that is worked out on a tree has the right gradient, with a rule
  for each kind of node;
* `Scope.eval_gradient` — the values and partials of compiled programs.
-/

namespace Formula

variable {K : Type} [ExactScalar K] {e : Formula K}

/-! ### The variables of a formula -/

/-- The value of the variable that a name stands for: the first variable that has the name as its
    lower case. -/
def assigned (names : List String) (values : List K) (name : String) : K :=
  ((names.findIdx? (Text.lowercase · == name)).bind (values[·]?)).getD 0

/-- Does the name stand for variable `j`? -/
def standsFor (names : List String) (j : Nat) (name : String) : Bool :=
  names.findIdx? (Text.lowercase · == name) == some j

variable {names : List String} {values : List K} {l r a : Formula K}

/-- The tree of the formula comes to its value, with the values of its derivatives as the gradient.
    What depends on no variable is a plain number. -/
def HasTangent (names : List String) (values : List K) (e : Formula K) : Prop :=
  ∃ v, e.interpret names values = .ok v ∧
    v.Tangent (e.valueAt (assigned names values)) (fun j : Fin values.length =>
      (e.derivative (standsFor names j)).valueAt (assigned names values)) ∧
    (e.VariableFree → ∃ x, v = .number x)

theorem hasTangent_number (x : K) : (number x).HasTangent names values :=
  ⟨.number x, rfl, Value.tangent_number fun _ => ExactScalar.zero_eq, fun _ => ⟨x, rfl⟩⟩

/-- The tangent of a symbol is one for the first variable of that name, and zero for all others. -/
theorem hasTangent_symbol (hlen : values.length = names.length) {name : String} {i : Nat}
    (hi : names.findIdx? (Text.lowercase · == name) = some i) :
    (symbol name : Formula K).HasTangent names values := by
  have bound : i < values.length := hlen ▸ (List.findIdx?_eq_some_iff_getElem.mp hi).1
  have hx : values[i]? = some values[i] := List.getElem?_eq_getElem bound
  refine ⟨.dual (Dual.seed values[i] i values.length), by simp only [interpret, hi, hx],
    (Value.tangent_seed i).congr ?_ fun j => ?_, fun free => absurd .refl (free name)⟩
  · simp [valueAt, assigned, hi, hx]
  · rw [derivative, standsFor, hi, valueAt_number, ExactScalar.one_eq, ExactScalar.zero_eq]
    by_cases h : (j : Nat) = i
    · simp [h]
    · simp [h, Ne.symm h]

/-- The chain rule: a call has a tangent where its argument has one and the function is
    differentiable. -/
theorem HasTangent.call [CharZero K] (f : Function) (h : a.HasTangent names values)
    (regular : (f.of a).Regular (assigned names values)) : (f.of a).HasTangent names values := by
  obtain ⟨v, hv, tangent, constant⟩ := h
  have value := interpret_call_eq_ok.mpr ⟨f, a, v, f.ofName?_name, rfl, hv, rfl⟩
  refine ⟨f.apply v, value, ?_, fun free => ?_⟩
  · rw [f.apply_eq, valueAt_of]
    refine (tangent.unary f.real f.slope).congr rfl fun j => ?_
    rw [derivative_of, valueAt_binary, Operator.real, mul_comm]
    by_cases free : a.VariableFree
    · -- the slope of a constant does not matter
      obtain ⟨x, rfl⟩ := constant free
      rw [tangent.of_number.2 j, mul_zero, mul_zero]
    · rw [valueAt_functionDerivative f a (regular.slopes f a .refl free)]
  · obtain ⟨x, rfl⟩ := constant fun name h => free name (.argument (List.mem_singleton_self a) h)
    exact ⟨f.real x, f.apply_eq _⟩

variable [ExactPowers K] {code : List (Instruction K)}

/-- The rules for sums, products, quotients and powers, where the operation is differentiable. -/
theorem HasTangent.binary (op : Operator) (hl : l.HasTangent names values)
    (hr : r.HasTangent names values)
    (regular : (binary op l r).Regular (assigned names values)) :
    (binary op l r).HasTangent names values := by
  obtain ⟨v, hv, left, left_constant⟩ := hl
  obtain ⟨w, hw, right, right_constant⟩ := hr
  -- it is enough to find the result with its tangent; from operands without names it is a number
  suffices rule : ∃ u, op.apply v w = .ok u ∧
      u.Tangent ((Formula.binary op l r).valueAt (assigned names values))
        (fun j : Fin values.length =>
          ((Formula.binary op l r).derivative (standsFor names j)).valueAt
            (assigned names values)) by
    obtain ⟨u, happly, tangent⟩ := rule
    refine ⟨u, interpret_binary_eq_ok.mpr ⟨v, w, hv, hw, happly⟩, tangent, fun free => ?_⟩
    obtain ⟨a, rfl⟩ := left_constant fun name h => free name (.left h)
    obtain ⟨b, rfl⟩ := right_constant fun name h => free name (.right h)
    obtain ⟨x, hx⟩ := op.apply_numbers a b
    exact ⟨x, Except.ok.inj (happly.symm.trans hx)⟩
  cases op with
  | add => exact ⟨v.add w, rfl, left.add right⟩
  | sub => exact ⟨v.sub w, rfl, left.sub right⟩
  | mul => exact ⟨v.mul w, rfl, left.mul right⟩
  | div =>
    refine ⟨v.div w, rfl, (left.div right (regular.quotients l r .refl)).congr rfl fun j => ?_⟩
    simp only [derivative, valueAt_binary, Operator.real]
    rw [mul_comm (r.valueAt _)]
  | pow =>
    -- the exponent is a whole number without names, and the value of its tree is this number
    obtain ⟨constant, k, hk, bound⟩ := regular.exponents l r .refl
    obtain ⟨e, rfl⟩ := right_constant constant
    obtain rfl : e = (k : K) := right.of_number.1.trans hk
    have base := regular.bases l r .refl k hk
    obtain ⟨u, happly, tangent⟩ := left.power bound base
    refine ⟨u, happly, tangent.congr ?_ fun j => ?_⟩
    · rw [valueAt_binary, Operator.real, hk, ExactPowers.pow_eq base]
    · simp only [derivative, valueAt_binary, valueAt_number, Operator.real, hk, ExactScalar.one_eq]
      rw [ExactPowers.mul_pow_pred_eq base]

/-- The tree of a formula comes to its value and gradient at regular points. -/
theorem interpret_tangent (hlen : values.length = names.length)
    (h : (Scope.ofNames names).instructions e = .ok code)
    (regular : e.Regular (assigned names values)) : e.HasTangent names values := by
  revert regular
  refine Scope.compiled_induction (P := fun e _ => e.Regular (assigned names values) →
    e.HasTangent names values) ?number ?symbol ?binary ?call h
  case number => exact fun x _ => hasTangent_number x
  case symbol =>
    intro name i hi _
    exact hasTangent_symbol hlen (Scope.index?_ofNames names name ▸ hi)
  case binary =>
    intro op l r _ _ ihl ihr regular
    exact .binary op (ihl (regular.part (.left .refl))) (ihr (regular.part (.right .refl))) regular
  case call =>
    intro name f a _ hf ih regular
    obtain rfl := Function.name_of_ofName? hf
    have inside : Part a (Function.of f a) := .argument (List.mem_singleton_self a) .refl
    exact .call f (ih (regular.part inside)) regular

end Formula

namespace Scope

open Formula

variable {K : Type} [ExactScalar K] [ExactPowers K]

/-- **Programs compute derivatives.**  In exact arithmetic, at a regular point, a program comes to
    the value of its formula, and its partials are the values of the partial derivatives. -/
theorem eval_gradient (names : List String) (e : Formula K) (p : Program K) (values : List K)
    (hp : (ofNames names).compile e = .ok p) (hlen : values.length = names.length)
    (regular : e.Regular (assigned names values)) :
    ∃ d, p.eval values = .ok d ∧ d.value = e.valueAt (assigned names values) ∧
      d.partials = List.ofFn fun j : Fin names.length =>
        (e.derivative (standsFor names j)).valueAt (assigned names values) := by
  obtain ⟨hcode, -⟩ := compile_eq_ok.mp hp
  obtain ⟨v, hv, tangent, -⟩ := interpret_tangent hlen hcode regular
  refine ⟨v.toDual names.length, eval_of_interpret hp hlen hv, ?_⟩
  rw [← hlen, show v.toDual values.length = _ from tangent]
  exact ⟨rfl, rfl⟩

/-- The formula `x ^ neg(2) * sqrt(y)`. -/
noncomputable def scaledRoot : Formula ℝ :=
  .binary .mul (.binary .pow (.symbol "x") (Function.neg.of (.number (Scalar.ofNat 2))))
    (Function.sqrt.of (.symbol "y"))

/-- At the point `x = 2`, `y = 4`, the exponent is `-2` and nothing is divided by zero. -/
theorem regular_scaledRoot : scaledRoot.Regular (assigned ["X", "y"] [2, 4]) where
  exponents l r h := by
    simp only [scaledRoot, part_binary, part_of, part_symbol, part_number] at h
    rcases h with h | (h | h | h | h) | h | h
    case inr.inl.inl =>
      cases h
      -- the one power has the exponent `neg(2)`
      refine ⟨fun name h => ?_, -2, ?_, by decide⟩
      · simp at h
        cases h
      · simp [Function.real]
    all_goals cases h
  quotients l r h := by
    simp only [scaledRoot, part_binary, part_of, part_symbol, part_number] at h
    rcases h with h | (h | h | h | h) | h | h <;> cases h
  bases l r h k hk := by
    simp only [scaledRoot, part_binary, part_of, part_symbol, part_number] at h
    rcases h with h | (h | h | h | h) | h | h
    case inr.inl.inl =>
      cases h
      exact fun _ => two_ne_zero
    all_goals cases h
  slopes f a h := by
    simp only [scaledRoot, part_binary, part_of, part_symbol, part_number, Function.of_inj] at h
    rcases h with h | (h | h | ⟨rfl, rfl⟩ | h) | ⟨rfl, rfl⟩ | h
    case inr.inl.inr.inr.inl => exact fun _ => by simp [Function.divisor]
    case inr.inr.inl => exact fun _ => (Real.sqrt_ne_zero'.mpr four_pos)
    all_goals cases h

/-- The gradient of a negative power times a root. -/
theorem eval_gradient_scaledRoot :
    ∃ p : Program ℝ, (ofNames ["X", "y"]).compile scaledRoot = .ok p ∧
      scaledRoot.Regular (assigned ["X", "y"] [2, 4]) ∧
      p.eval [2, 4] = .ok ⟨1 / 2, [-1 / 2, 1 / 16]⟩ := by
  let p : Program ℝ :=
    ⟨[.load 0, .constant (Scalar.ofNat 2), .call .neg, .binary .pow, .load 1, .call .sqrt,
      .binary .mul], 2⟩
  have hp : (ofNames ["X", "y"]).compile scaledRoot = .ok p := by rfl
  obtain ⟨d, heval, hvalue, hpartials⟩ :=
    eval_gradient ["X", "y"] scaledRoot p [2, 4] hp rfl regular_scaledRoot
  refine ⟨p, hp, regular_scaledRoot, ?_⟩
  have x : (symbol "x").valueAt (assigned ["X", "y"] [(2 : ℝ), 4]) = 2 := rfl
  have y : (symbol "y").valueAt (assigned ["X", "y"] [(2 : ℝ), 4]) = 4 := rfl
  have names : standsFor ["X", "y"] 0 "x" ∧ ¬ standsFor ["X", "y"] 0 "y" ∧
      ¬ standsFor ["X", "y"] 1 "x" ∧ standsFor ["X", "y"] 1 "y" := by decide
  -- the powers and the root that the value and the derivatives are made of
  have square : Scalar.pow (2 : ℝ) (-2) = 1 / 4 := by
    have power := ExactPowers.pow_eq (b := (2 : ℝ)) (k := -2) fun _ => two_ne_zero
    norm_num at power
    exact power
  have cube : Scalar.pow (2 : ℝ) (-3) = 1 / 8 := by
    have power := ExactPowers.pow_eq (b := (2 : ℝ)) (k := -3) fun _ => two_ne_zero
    norm_num at power
    exact power
  have root : Scalar.sqrt (4 : ℝ) = 2 := by
    rw [show (4 : ℝ) = 2 ^ 2 by norm_num]
    exact Real.sqrt_sq two_pos.le
  obtain ⟨value, partials⟩ := d
  obtain rfl : value = 1 / 2 := by
    refine hvalue.trans ?_
    norm_num [scaledRoot, Operator.real, Function.real, x, y, square, root]
  obtain rfl : partials = [-1 / 2, 1 / 16] := by
    refine hpartials.trans ?_
    norm_num [scaledRoot, derivative, derivative_of, Operator.real, Function.real,
      Function.derivative, x, y, names, root, square, cube]
  exact heval

end Scope

end Drafting
