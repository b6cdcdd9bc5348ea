import Drafting.LeastSquares.Descent
import Drafting.Relaxation.Relax
import Drafting.Relaxation.Substitution

namespace Drafting

/-!
# Solving equations as far as possible

From equation texts and starting values to the values that meet as many equations as relaxation
keeps.  Texts that cannot be read or compiled are the caller's fault and reported; a search that
fails is not, it leaves the values where they were.
-/

/-- How equations are solved. -/
structure SolveOptions (F : Type) where
  forwardSubs : Substitutions F
  epsilon : F
  maxSteps : Option Nat

/-- Which equations hold, and the values found. -/
structure Solution (F : Type) where
  satisfied : List Bool
  assignment : Keyed F

variable {F : Type} [Scalar F]

namespace SolveOptions

/-- Default options: nothing is replaced. -/
def default : SolveOptions F := ⟨Keyed.empty, Settings.defaultEpsilon, none⟩

/-- The settings of the least-squares solver. -/
def settings (o : SolveOptions F) : Settings F :=
  { Settings.default with epsilon := o.epsilon, maxSteps := o.maxSteps }

/-- An equation holds where its squared residual is below this. -/
def threshold (o : SolveOptions F) : F := Scalar.sqrt o.epsilon

/-- Does an equation hold at these values? -/
def isMet (o : SolveOptions F) (values : List F) (p : Program F) : Bool :=
  match p.eval values with
  | .ok d => Scalar.less (d.value * d.value) o.threshold
  | .error _ => false

/-- The values that the least-squares solver finds, if it finds any. -/
def minimizer (o : SolveOptions F) (names : List String) (equations : List (Program F))
    (values : List F) : Option (List F) :=
  let system := (Equations.mk names equations).residualSystem names.length
  match minimize o.settings system values with
  | some (.ok (d, _)) => some d.point.toList
  | _ => none

end SolveOptions

/-- Reads an equation, replaces names in it and compiles it. -/
def compileEquation (subs : Substitutions F) (scope : Scope) (text : String) :
    Except (FormulaError F) (Program F) := do
  let e ← (Formula.ofText text).mapError .reading
  (scope.compile (subs.substitute e)).mapError .compiling

/-- Solves equations, starting from the assigned values. -/
def solveEquations (equations : List String) (assignment : Keyed F) (o : SolveOptions F) :
    Except (SolveError F) (Solution F) := do
  o.settings.validate.mapError .settings
  let names := assignment.keys
  let programs ← (equations.mapM (compileEquation o.forwardSubs (Scope.ofNames names))).mapError
    .formula
  if programs.isEmpty then return ⟨[], assignment⟩
  let (satisfied, values) ← relax (o.minimizer names) o.isMet programs assignment.values
  return ⟨satisfied, o.forwardSubs.writeBack (Keyed.ofList (names.zip values))⟩

end Drafting
