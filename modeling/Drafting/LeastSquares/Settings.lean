import Drafting.Scalar

namespace Drafting

/-!
# Settings of the least-squares solver

Defaults, and the conditions that settings have to meet.  Of several faults the first in the order
of `SettingsFault` is reported.
-/

/-- What can be wrong with settings. -/
inductive SettingsFault where
  | epsilon
  | initialDamping
  | factors
  | maxSteps
  deriving DecidableEq, Repr

/-- The sentence for wrong settings. -/
def SettingsFault.message : SettingsFault → String
  | .epsilon => "epsilon must be positive."
  | .initialDamping => "initial_lambda must be positive."
  | .factors => "lambda_up and lambda_down must be greater than one."
  | .maxSteps => "max_steps must be greater than zero."

/-- How the least-squares solver goes about its work. -/
structure Settings (F : Type) where
  /-- The damping of the first step. -/
  initialDamping : F
  /-- What a rejected step multiplies the damping by. -/
  raise : F
  /-- What an accepted step divides the damping by. -/
  lower : F
  /-- Errors, slopes and gains below this end the search. -/
  epsilon : F
  /-- How many steps are taken at most. -/
  maxSteps : Option Nat

namespace Settings

variable {F : Type} [Scalar F]

/-- The epsilon of default settings. -/
def defaultEpsilon : F := Scalar.ofDecimal 1 5

/-- Default settings. -/
def default : Settings F where
  initialDamping := Scalar.ofNat 10
  raise := Scalar.ofNat 10
  lower := Scalar.ofNat 10
  epsilon := defaultEpsilon
  maxSteps := none

/-- Settings must have a positive epsilon and damping, factors above one, and room for a step. -/
def validate (s : Settings F) : Except SettingsFault Unit :=
  if !Scalar.less Scalar.zero s.epsilon then .error .epsilon
  else if !Scalar.less Scalar.zero s.initialDamping then .error .initialDamping
  else if !Scalar.less Scalar.one s.raise || !Scalar.less Scalar.one s.lower then .error .factors
  else if s.maxSteps = some 0 then .error .maxSteps
  else .ok ()

end Settings

end Drafting
