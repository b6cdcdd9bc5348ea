import Drafting.Program.Compile
import Drafting.Formula.Reader
import Drafting.Keyed

namespace Drafting

/-!
# Running programs

The machine works on a stack of values.  It reads the variables from a list and puts each on the
stack as a dual of its own.  The file ends with the whole way from a text to its value.
-/

/-- Why a program has no value. -/
inductive EvalError (F : Type) where
  | power (error : PowerError F)
  | argumentCount (expected found : Nat)
  | stackUnderflow
  deriving Repr, BEq

/-- Everything that can go wrong between the text of a formula and its value. -/
inductive FormulaError (F : Type) where
  | reading (error : SyntaxError F)
  | compiling (error : CompileError)
  | evaluating (error : EvalError F)
  deriving Repr, BEq

variable {F : Type} [Scalar F]

/-- The sentence for a failed run. -/
def EvalError.message : EvalError F → String
  | .power error => error.message
  | .argumentCount expected found =>
    "Expected " ++ toString expected ++ " variable value(s), got " ++ toString found
  | .stackUnderflow => "Malformed bytecode: stack underflow"

/-- The sentence for a failed evaluation. -/
def FormulaError.message : FormulaError F → String
  | .reading error => error.message
  | .compiling error => error.message
  | .evaluating error => error.message

/-- The machine's stack, top first. -/
abbrev Stack (F : Type) := List (Value F)

namespace Instruction

/-- Carries out one instruction, with the variables at `values`. -/
def step (values : List F) (stack : Stack F) :
    Instruction F → Except (EvalError F) (Stack F)
  | .constant x => .ok (.number x :: stack)
  | .load i =>
    match values[i]? with
    | some x => .ok (.dual (Dual.seed x i values.length) :: stack)
    | none => .error (.argumentCount (i + 1) values.length)
  | .binary op =>
    match stack with
    | right :: left :: rest =>
      match op.apply left right with
      | .ok v => .ok (v :: rest)
      | .error e => .error (.power e)
    | _ => .error .stackUnderflow
  | .call f =>
    match stack with
    | v :: rest => .ok (f.apply v :: rest)
    | [] => .error .stackUnderflow

/-- Carries out a list of instructions. -/
def run (values : List F) (code : List (Instruction F)) (stack : Stack F) :
    Except (EvalError F) (Stack F) :=
  code.foldlM (step values) stack

/-- Runs instructions on an empty stack: the result, and what is left below it. -/
def execute (values : List F) (code : List (Instruction F)) :
    Except (EvalError F) (Value F × Stack F) := do
  match ← run values code [] with
  | v :: rest => return (v, rest)
  | [] => throw .stackUnderflow

theorem run_nil (values : List F) (stack : Stack F) : run values [] stack = .ok stack := rfl

theorem run_cons (values : List F) (i : Instruction F) (code : List (Instruction F))
    (stack : Stack F) :
    run values (i :: code) stack = (step values stack i).bind (run values code) := rfl

/-- Code may be run in two parts. -/
theorem run_append (values : List F) (code code' : List (Instruction F)) (stack : Stack F) :
    run values (code ++ code') stack = (run values code stack).bind (run values code') := by
  simp [run, List.foldlM_append, bind]; rfl

end Instruction

namespace Program

/-- The value of a program and its partials, with the variables at `values`. -/
def eval (p : Program F) (values : List F) : Except (EvalError F) (Dual F) :=
  if values.length = p.variableCount then do
    let (v, _) ← Instruction.execute values p.code
    return v.toDual p.variableCount
  else .error (.argumentCount p.variableCount values.length)

end Program

/-- Reads a text, compiles it for the names of an assignment and runs it on the assigned
    values. -/
def evaluate (text : String) (assignment : Keyed F) : Except (FormulaError F) (Dual F) := do
  let e ← (Formula.ofText text).mapError .reading
  let p ← ((Scope.ofNames assignment.keys).compile e).mapError .compiling
  (p.eval assignment.values).mapError .evaluating

end Drafting
