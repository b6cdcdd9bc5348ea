import Drafting.LeastSquares.Settings
import Drafting.LeastSquares.Normal
import Drafting.Program.Equations

namespace Drafting

/-!
# Damped least squares

The Levenberg-Marquardt iteration.  Each step solves the damped normal equations and tries the
point they lead to.  A smaller error is accepted, and the damping lowered; otherwise the damping
is raised and the same normal equations are used again.  The search ends when the error, the
slopes or the gain is small, when the steps are used up, or with an error.

Nothing here promises that it ends: `Descent.run` takes the number of steps it may try and has no
answer when they are too few.
-/

/-- Why an iteration broke off. -/
inductive Divergence where
  | startNotFinite
  | stepNotFinite
  deriving DecidableEq, Repr

/-- Why a solver has no result. -/
inductive SolveError (F : Type) where
  | formula (error : FormulaError F)
  | diverged (step : Nat) (reason : Divergence)
  | settings (fault : SettingsFault)

/-- What ended a search. -/
inductive Termination where
  /-- The total error fell below epsilon. -/
  | errorBelowEpsilon
  /-- All slopes fell below epsilon. -/
  | flatJacobian
  /-- The error changes by less than epsilon. -/
  | stalled
  /-- The steps are used up. -/
  | maxSteps
  deriving DecidableEq, Repr

/-- A system of `m` residuals of `n` variables, as far as a solver can see it: it writes its
    linearization at a point to a buffer, or fails. -/
abbrev ResidualSystem (F : Type) (m n : Nat) :=
  Vector F n → Linearization F m n → Except (EvalError F) (Linearization F m n)

/-- Where a search stands: the last accepted point, the linearization there and its error.  Of the
    two buffers the other one is free for the next trial.  The normal equations are those of the
    current linearization unless they are marked as stale. -/
structure Descent (F : Type) (m n : Nat) where
  point : Vector F n
  error : F
  damping : F
  iterations : Nat
  current : Linearization F m n
  spare : Linearization F m n
  normal : NormalEquations F n
  stale : Bool

/-- What a step leads to. -/
inductive Progress (F : Type) (m n : Nat) where
  | goesOn (d : Descent F m n)
  | ended (d : Descent F m n) (why : Termination)

variable {F : Type} [Scalar F] {m n : Nat}

/-- The words for a reason. -/
def Divergence.message : Divergence → String
  | .startNotFinite => "residual at the initial guess is not finite"
  | .stepNotFinite => "linear solve produced a non-finite step"

/-- The sentence for a failed search. -/
def SolveError.message : SolveError F → String
  | .formula error => error.message
  | .diverged step reason =>
    "Levenberg-Marquardt diverged at step " ++ toString step ++ ": " ++ reason.message
  | .settings fault => "Invalid solver settings: " ++ fault.message

/-- Equations as a solver sees them: they write their rows one after the other. -/
def Equations.residualSystem (s : Equations F) (n : Nat) :
    ResidualSystem F s.programs.length n := fun x buffer =>
  (List.finRange s.programs.length).foldlM
    (fun l i => return l.write i (← (s.programs.get i).eval x.toList)) buffer

/-- The linearization at a point, written to a buffer; a failed evaluation fails the search. -/
def ResidualSystem.linearizeAt (system : ResidualSystem F m n) (x : Vector F n)
    (buffer : Linearization F m n) : Except (SolveError F) (Linearization F m n) :=
  (system x buffer).mapError fun e => .formula (.evaluating e)

/-- Do two errors differ by less than epsilon? -/
def isClose (epsilon e e' : F) : Bool := Scalar.less (Scalar.abs (e - e')) epsilon

namespace Descent

/-- The search before its first step. -/
def start (settings : Settings F) (system : ResidualSystem F m n) (x : Vector F n) :
    Except (SolveError F) (Descent F m n) := do
  let current ← system.linearizeAt x .blank
  let error := current.error
  if Scalar.isFinite error then
    return ⟨x, error, settings.initialDamping, 0, current, .blank, .blank, true⟩
  else throw (.diverged 0 .startNotFinite)

/-- The search with normal equations that are not stale. -/
def refresh (d : Descent F m n) : Descent F m n :=
  if d.stale then { d with normal := .ofLinearization d.current, stale := false } else d

/-- A step to `x`, where the linearization is `l` and the error is smaller. -/
def accept (settings : Settings F) (d : Descent F m n) (x : Vector F n)
    (l : Linearization F m n) (error : F) : Progress F m n :=
  let next : Descent F m n :=
    { d with
      point := x
      error := error
      damping := d.damping / settings.lower
      current := l
      spare := d.current
      stale := true }
  if Scalar.less error settings.epsilon then .ended next .errorBelowEpsilon
  else if l.isFlat settings.epsilon then .ended next .flatJacobian
  else if isClose settings.epsilon d.error error then .ended next .stalled
  else .goesOn next

/-- A step that is not taken: at its end the linearization is `l` and the error is not smaller. -/
def reject (settings : Settings F) (d : Descent F m n) (l : Linearization F m n) (error : F) :
    Progress F m n :=
  let next : Descent F m n := { d with damping := d.damping * settings.raise, spare := l }
  if isClose settings.epsilon d.error error || !Scalar.isFinite next.damping then
    .ended next .stalled
  else .goesOn next

/-- What follows from a trial at `x`, where the linearization is `l`. -/
def judge (settings : Settings F) (d : Descent F m n) (x : Vector F n) (l : Linearization F m n) :
    Progress F m n :=
  let error := l.error
  if Scalar.less error d.error then d.accept settings x l error else d.reject settings l error

/-- Tries a step. -/
def attempt (settings : Settings F) (system : ResidualSystem F m n) (d : Descent F m n) :
    Except (SolveError F) (Progress F m n) := do
  let d := { d.refresh with iterations := d.iterations + 1 }
  let delta := d.normal.solve d.damping
  if Scalar.allFinite delta.toList then
    let trial := Vector.zipWith (· - ·) d.point delta
    let l ← system.linearizeAt trial d.spare
    return d.judge settings trial l
  else throw (.diverged d.iterations .stepNotFinite)

/-- One step, if there is one left to take. -/
def step (settings : Settings F) (system : ResidualSystem F m n) (d : Descent F m n) :
    Except (SolveError F) (Progress F m n) :=
  if settings.maxSteps.any (· ≤ d.iterations) then .ok (.ended d .maxSteps)
  else d.attempt settings system

/-- Steps until the search ends, if `fuel` of them are enough. -/
def run (settings : Settings F) (system : ResidualSystem F m n) :
    (fuel : Nat) → Descent F m n → Option (Except (SolveError F) (Descent F m n × Termination))
  | 0, _ => none
  | fuel + 1, d =>
    match d.step settings system with
    | .error e => some (.error e)
    | .ok (.ended d why) => some (.ok (d, why))
    | .ok (.goesOn d) => run settings system fuel d

end Descent

/-- More steps than any search takes in practice; what a search may try if its settings name no
    limit. -/
def stepSupply : Nat := Nat.pow 2 62

/-- How many steps a search with these settings may try: one more than it may take, so that it
    can notice that they are used up. -/
def Settings.fuel (s : Settings F) : Nat := s.maxSteps.elim stepSupply (· + 1)

/-- Searches a point of small error near `guess`, in at most `fuel` steps. -/
def minimizeWithin (fuel : Nat) (settings : Settings F) (system : ResidualSystem F m n)
    (guess : List F) : Option (Except (SolveError F) (Descent F m n × Termination)) :=
  match settings.validate with
  | .error fault => some (.error (.settings fault))
  | .ok () =>
    match ofListExact? n guess with
    | none => some (.error (.formula (.evaluating (.argumentCount n guess.length))))
    | some x =>
      match Descent.start settings system x with
      | .error e => some (.error e)
      | .ok d => d.run settings system fuel

/-- Searches a point of small error near `guess`. -/
def minimize (settings : Settings F) (system : ResidualSystem F m n) (guess : List F) :
    Option (Except (SolveError F) (Descent F m n × Termination)) :=
  minimizeWithin settings.fuel settings system guess

end Drafting
