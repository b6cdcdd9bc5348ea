import Drafting.Program.Machine

namespace Drafting

/-!
# Equations

Programs that share one list of variables.  Each program is the left-hand side of an equation
whose right-hand side is zero.
-/

/-- Equations over the variables with the given names. -/
structure Equations (F : Type) where
  names : List String
  programs : List (Program F)

namespace Equations

variable {F : Type}

/-- Compiles formulas for the variables `names`; the first fault counts. -/
def ofFormulas (names : List String) (es : List (Formula F)) :
    Except CompileError (Equations F) := do
  return ⟨names, ← es.mapM (Scope.ofNames names).compile⟩

variable [Scalar F]

/-- The value of one equation and its partials. -/
def evalAt (s : Equations F) (index : Nat) (values : List F) : Except (EvalError F) (Dual F) :=
  match s.programs[index]? with
  | some p => p.eval values
  | none => .error .stackUnderflow

/-- The values of all equations, with their partials. -/
def linearize (s : Equations F) (values : List F) : Except (EvalError F) (List (Dual F)) :=
  s.programs.mapM (·.eval values)

/-- The values of all equations. -/
def residuals (s : Equations F) (values : List F) : Except (EvalError F) (List F) := do
  return (← s.linearize values).map Dual.value

end Equations

end Drafting
