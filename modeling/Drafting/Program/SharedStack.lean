import Drafting.Program.Equations
import Drafting.LeastSquares.Normal

namespace Drafting

/-!
# Runs that share a stack

The machine may be lent a stack instead of starting with one of its own, and the equations of a
system all run on the same one.  A run clears the stack before it starts, but not when it ends: what
is left below the result, or where the run failed, stays until the next run.
-/

/-- Work on a stack that was lent.  It may fail, and the stack is kept nevertheless. -/
abbrev OnStack (F : Type) : Type → Type := ExceptT (EvalError F) (StateM (Stack F))

variable {F α : Type}

namespace OnStack

/-- Does the work on this stack: what it comes to, and the stack afterwards. -/
def on (work : OnStack F α) (stack : Stack F) : Except (EvalError F) α × Stack F :=
  Id.run ((ExceptT.run work).run stack)

/-- Takes everything off the stack. -/
def clear : OnStack F Unit := set ([] : Stack F)

/-- Puts a value on the stack. -/
def push (v : Value F) : OnStack F Unit := modify (v :: ·)

/-- Takes the value on top. -/
def pop : OnStack F (Value F) := do
  match ← get with
  | v :: rest =>
    set rest
    return v
  | [] => throw .stackUnderflow

end OnStack

variable [Scalar F]

namespace Instruction

open OnStack

/-- Carries out one instruction.  What it has taken off the stack is gone, also if it fails. -/
def stepOn (values : List F) : Instruction F → OnStack F Unit
  | .constant x => push (.number x)
  | .load i =>
    match values[i]? with
    | some x => push (.dual (Dual.seed x i values.length))
    | none => throw (.argumentCount (i + 1) values.length)
  | .binary op => do
    let right ← pop
    let left ← pop
    match op.apply left right with
    | .ok v => push v
    | .error e => throw (.power e)
  | .call f => do
    let v ← pop
    push (f.apply v)

/-- Clears the stack and carries out a list of instructions. -/
def runOn (values : List F) (code : List (Instruction F)) : OnStack F Unit := do
  clear
  code.forM (stepOn values)

/-- Clears the stack, carries out a list of instructions and takes the result off. -/
def executeOn (values : List F) (code : List (Instruction F)) : OnStack F (Value F) := do
  runOn values code
  pop

end Instruction

/-- The value of a program and its partials, by way of a stack that was lent. -/
def Program.evalOn (p : Program F) (values : List F) : OnStack F (Dual F) :=
  if values.length = p.variableCount then do
    let v ← Instruction.executeOn values p.code
    return v.toDual p.variableCount
  else throw (.argumentCount p.variableCount values.length)

namespace Equations

/-- The value of one equation and its partials. -/
def evalAtOn (s : Equations F) (index : Nat) (values : List F) : OnStack F (Dual F) :=
  match s.programs[index]? with
  | some p => p.evalOn values
  | none => throw .stackUnderflow

/-- The values of all equations, one after the other on the same stack. -/
def residualsOn (s : Equations F) (values : List F) : OnStack F (List F) :=
  s.programs.mapM fun p => do return (← p.evalOn values).value

/-- Writes the values of all equations and their partials to a buffer, one after the other on the
    same stack. -/
def linearizeOn (s : Equations F) {n : Nat} (x : Vector F n)
    (buffer : Linearization F s.programs.length n) :
    OnStack F (Linearization F s.programs.length n) :=
  (List.finRange s.programs.length).foldlM
    (fun l i => do return l.write i (← (s.programs.get i).evalOn x.toList)) buffer

end Equations

end Drafting
