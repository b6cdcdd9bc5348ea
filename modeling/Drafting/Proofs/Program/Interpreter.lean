import Drafting.Binary64
import Drafting.Program.Machine
import Drafting.Proofs.Dual.Width
import Drafting.Proofs.Program.Compiled
import Drafting.Proofs.Result

namespace Drafting

/-!
# Programs compute what formulas mean

The meaning of a formula is worked out on its tree, operands from left to right.  A compiled program
comes to the same value or to the same failure, and leaves nothing else on the stack.

* `Formula.interpret` — the value of a formula, without a program;
* `Scope.run_instructions` — what the compiled instructions do on any stack;
* `Scope.eval_eq_interpret` — compiled programs against the trees they come from.
-/

variable {F : Type} [Scalar F]

namespace Formula

/-- The value of a formula with the variables `names` at `values`.  A name stands for the first
    variable that has it as its lower case, as a dual of its own. -/
def interpret (names : List String) (values : List F) :
    Formula F → Except (FormulaError F) (Value F)
  | .number x => .ok (.number x)
  | .symbol name =>
    match names.findIdx? (Text.lowercase · == name) with
    | none => .error (.compiling (.unknownVariable name))
    | some i =>
      match values[i]? with
      | none => .error (.evaluating (.argumentCount (i + 1) values.length))
      | some x => .ok (.dual (Dual.seed x i values.length))
  | .binary op l r => do
    let v ← l.interpret names values
    let w ← r.interpret names values
    (op.apply v w).mapError fun fault => .evaluating (.power fault)
  | .call name args =>
    match Function.ofName? name with
    | none => .error (.compiling (.unknownFunction name))
    | some f =>
      match args with
      | [a] => do return f.apply (← a.interpret names values)
      | args => .error (.compiling (.arity name f.arity args.length))

section Values

variable {names : List String} {values : List F} {l r : Formula F} {v : Value F}

/-- An operation has a value iff its operands have values and it can be applied to them. -/
theorem interpret_binary_eq_ok {op : Operator} :
    (binary op l r).interpret names values = .ok v ↔ ∃ x y, l.interpret names values = .ok x ∧
      r.interpret names values = .ok y ∧ op.apply x y = .ok v := by
  rw [interpret]
  simp only [bind_eq_ok, mapError_eq_ok, exists_and_left]

/-- A call has a value iff it is a known function of one argument and the argument has a value. -/
theorem interpret_call_eq_ok {name : String} {args : List (Formula F)} :
    (call name args).interpret names values = .ok v ↔ ∃ g a x, Function.ofName? name = some g ∧
      args = [a] ∧ a.interpret names values = .ok x ∧ v = g.apply x := by
  rw [interpret]
  cases Function.ofName? name with
  | none => simp
  | some g =>
    rcases args with _ | ⟨a, _ | ⟨b, rest⟩⟩
    · simp
    · dsimp only
      rw [bind_eq_ok]
      simp [pure, Except.pure, eq_comm]
    · simp

end Values

/-- A run that starts on `stack` agrees with the tree: the value goes on top of the stack and fits
    among duals with `n` partials, or the same power fails. -/
inductive Agrees (n : Nat) (stack : Stack F) :
    Except (FormulaError F) (Value F) → Except (EvalError F) (Stack F) → Prop where
  | value {v : Value F} (width : v.HasWidth n) : Agrees n stack (.ok v) (.ok (v :: stack))
  | failure (fault : PowerError F) :
    Agrees n stack (.error (.evaluating (.power fault))) (.error (.power fault))

end Formula

/-- A text has the value of its program. -/
theorem evaluate_eq_ok {text : String} {a : Keyed F} {e : Formula F} {p : Program F} {d : Dual F}
    (htext : Formula.ofText text = .ok e) (hp : (Scope.ofNames a.keys).compile e = .ok p)
    (hd : p.eval a.values = .ok d) : evaluate text a = .ok d := by
  refine bind_eq_ok.mpr ⟨e, mapError_eq_ok.mpr htext, ?_⟩
  exact bind_eq_ok.mpr ⟨p, mapError_eq_ok.mpr hp, mapError_eq_ok.mpr hd⟩

namespace Scope

open Formula Instruction

variable {names : List String} {values : List F} {code : List (Instruction F)} {e : Formula F}

/-- **Simulation.**  On any stack, the instructions of a formula agree with the formula. -/
theorem run_instructions (hlen : values.length = names.length)
    (h : (ofNames names).instructions e = .ok code) (stack : Stack F) :
    Agrees values.length stack (e.interpret names values) (run values code stack) := by
  revert stack
  refine compiled_induction (P := fun e code => ∀ stack,
    Agrees values.length stack (e.interpret names values) (run values code stack)) ?number ?symbol
    ?binary ?call h
  case number => exact fun x stack => .value (Value.hasWidth_number x)
  case symbol =>
    intro name i hi stack
    rw [index?_ofNames] at hi
    have bound : i < values.length := hlen ▸ (List.findIdx?_eq_some_iff_getElem.mp hi).1
    have hx : values[i]? = some values[i] := List.getElem?_eq_getElem bound
    simp only [interpret, hi, hx, run_cons, step, Except.bind, run_nil]
    exact .value (Dual.length_seed _ _ _)
  case binary =>
    intro op l r left right ihl ihr stack
    rw [interpret, run_append, run_append]
    have hl := ihl stack
    generalize l.interpret names values = outcome, run values left stack = result at hl ⊢
    cases hl with
    | failure fault => exact .failure fault
    | @value v hv =>
      -- the right operand finds the left one on the stack
      have hr := ihr (v :: stack)
      simp only [Except.bind, bind]
      generalize r.interpret names values = outcome, run values right (v :: stack) = result at hr ⊢
      cases hr with
      | failure fault => exact .failure fault
      | @value w hw =>
        simp only [run_cons, step]
        cases happly : op.apply v w with
        | error fault => exact .failure fault
        | ok u => exact .value (Operator.hasWidth_apply hv hw happly)
  case call =>
    intro name f a argument hf ih stack
    simp only [interpret, hf, run_append]
    have ha := ih stack
    generalize a.interpret names values = outcome, run values argument stack = result at ha ⊢
    cases ha with
    | failure fault => exact .failure fault
    | value hv => exact .value (f.hasWidth_apply hv)

/-- A formula with a value has a program with that value. -/
theorem eval_of_interpret {p : Program F} {v : Value F} (hp : (ofNames names).compile e = .ok p)
    (hlen : values.length = names.length) (hv : e.interpret names values = .ok v) :
    p.eval values = .ok (v.toDual names.length) := by
  obtain ⟨hcode, -⟩ := compile_eq_ok.mp hp
  have count := variableCount_of_compile hp
  have agrees := run_instructions hlen hcode []
  rw [hv] at agrees
  rw [Program.eval, if_pos (hlen.trans count.symm), execute, count]
  generalize run values p.code [] = result at agrees ⊢
  cases agrees with
  | value => rfl

/-- **Compiled programs mean what their formulas mean.**  A program comes to the value that is
    worked out on the tree, as a dual with one partial for each variable, and leaves nothing on the
    stack below it; or it fails in the power that fails first on the tree.  It fails in no other
    way. -/
theorem eval_eq_interpret (names : List String) (e : Formula F) (p : Program F) (values : List F)
    (hp : (ofNames names).compile e = .ok p) (hlen : values.length = names.length) :
    (execute values p.code).mapError .evaluating = (e.interpret names values).map (·, []) ∧
    (p.eval values).mapError .evaluating =
      (e.interpret names values).map (Value.toDual names.length) ∧
    (∀ error, p.eval values = .error error → ∃ fault, error = .power fault) ∧
    ∀ d, p.eval values = .ok d → d.partials.length = names.length := by
  obtain ⟨hcode, hcount⟩ := compile_eq_ok.mp hp
  have count : p.variableCount = names.length := by simp [hcount, size, ofNames]
  have agrees := run_instructions hlen hcode []
  rw [Program.eval, if_pos (hlen.trans count.symm), execute, count]
  rw [hlen] at agrees
  generalize e.interpret names values = outcome, run values p.code [] = result at agrees ⊢
  cases agrees with
  | failure fault =>
    exact ⟨rfl, rfl, fun _ h => ⟨fault, (Except.error.inj h).symm⟩, by rintro _ ⟨⟩⟩
  | value width =>
    exact ⟨rfl, rfl, by rintro _ ⟨⟩, fun _ h => Except.ok.inj h ▸ width.length_toDual⟩

/-- A formula whose name `x` is the lower case of two variables, and whose power has to fail. -/
def shiftedPower : Formula Float :=
  .binary .pow (.binary .sub (.symbol "x") (.number 1)) (.call "sin" [.symbol "y"])

/-- Its instructions: `x` is the first variable, `y` the third. -/
def shiftedPowerProgram : Program Float :=
  ⟨[.load 0, .constant 1, .binary .sub, .load 2, .call .sin, .binary .pow], 3⟩

theorem interpret_shiftedPower : shiftedPower.interpret ["X", "x", "Y"] [2, 3, 4] =
    .error (.evaluating (.power .variableExponent)) := rfl

/-- A power whose exponent is a variable, which program and formula refuse with the same error. -/
theorem eval_eq_interpret_shiftedPower :
    (ofNames ["X", "x", "Y"]).compile shiftedPower = .ok shiftedPowerProgram ∧
      [(2 : Float), 3, 4].length = ["X", "x", "Y"].length ∧
      (execute [2, 3, 4] shiftedPowerProgram.code).mapError FormulaError.evaluating =
        .error (.evaluating (.power .variableExponent)) ∧
      (shiftedPowerProgram.eval [2, 3, 4]).mapError FormulaError.evaluating =
        .error (.evaluating (.power .variableExponent)) := by
  have hp : (ofNames ["X", "x", "Y"]).compile shiftedPower = .ok shiftedPowerProgram := rfl
  obtain ⟨hrun, heval, -⟩ := eval_eq_interpret ["X", "x", "Y"] shiftedPower shiftedPowerProgram
    [2, 3, 4] hp rfl
  rw [interpret_shiftedPower] at hrun heval
  exact ⟨hp, rfl, hrun, heval⟩

end Scope

end Drafting
