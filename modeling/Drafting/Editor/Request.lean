import Drafting.Editor.Decode
import Drafting.Graph.Decompose

namespace Drafting

/-!
# Requests of an editor

Each request takes a document apart, runs one of the computations of the library and answers with
its result or with a failure that has one sentence to show.
-/

/-- What a document should have been. -/
inductive Subject where
  | constraintGraph
  | solveRequest
  | constraints
  deriving DecidableEq, Repr

/-- The words for a subject. -/
def Subject.name : Subject → String
  | .constraintGraph => "constraint graph"
  | .solveRequest => "solve request"
  | .constraints => "constraints"

/-- Why a request fails. -/
inductive Failure (F : Type) where
  | malformed (subject : Subject)
  | solving (equationCount : Nat) (error : SolveError F)
  | building (error : ConstraintError F)
  | decomposing (error : DecomposeError)
  | splitting (error : DecomposeError)
  | noSteps
  | batch (error : BatchError)

variable {F : Type}

/-- The sentence to show. -/
def Failure.message [Scalar F] : Failure F → String
  | .malformed subject => "Invalid " ++ subject.name ++ ": malformed"
  | .solving count error =>
    "Failed to solve " ++ toString count ++ " constraint equations: " ++ error.message
  | .building error => "Failed to build constraint equations: " ++ error.message
  | .decomposing error => "Decomposition failed: " ++ error.message
  | .splitting error => "Decomposition step failed: " ++ error.message
  | .noSteps => "max_steps must be positive."
  | .batch error => error.message

/-- A decomposition as far as it went. -/
structure DecomposeAnswer where
  graph : Graph
  complete : Bool
  steps : Nat
  deriving DecidableEq, Repr

namespace Request

/-- What was read from a document, or the failure that says what it should have been. -/
def decoded {α : Type} (subject : Subject) (result : Option α) : Except (Failure F) α :=
  match result with
  | some x => .ok x
  | none => .error (.malformed subject)

/-- The graph in a document. -/
def graphOf (d : Document F) : Except (Failure F) Graph :=
  decoded .constraintGraph (Graph.ofDocument? d)

/-- Decomposes a graph in at most `limit` steps; a decomposition cut short is an answer, too. -/
def decomposeWithin (limit : Nat) (g : Graph) : Except (Failure F) DecomposeAnswer :=
  match g.decomposeWithin limit with
  | .ok d => .ok ⟨d.graph, true, d.steps⟩
  | .error (.incomplete steps graph) => .ok ⟨graph, false, steps⟩
  | .error e => .error (.decomposing e)

/-- Decomposes a graph. -/
def decompose (d : Document F) : Except (Failure F) DecomposeAnswer := do
  decomposeWithin Graph.maxSteps (← graphOf d)

/-- Splits a graph at its first articulation pair. -/
def decomposeStep (d : Document F) : Except (Failure F) Graph := do
  (← graphOf d).splitFirst.mapError .splitting

/-- Lists the articulation pairs of a graph. -/
def articulationPairs (d : Document F) : Except (Failure F) (List (String × String)) := do
  return (← graphOf d).articulationPairs

/-- Starts a decomposition in batches.  The limit is looked at before the graph. -/
def startRunner (d : Document F) (maxSteps : Nat) : Except (Failure F) Runner :=
  if maxSteps = 0 then .error .noSteps
  else do return Runner.start (← graphOf d) maxSteps

/-- Makes up to `batch` splits and answers with the progress; the runner after them goes on being
    used even if they fail. -/
def runBatch (r : Runner) (batch : Nat) : Runner × Except (Failure F) RunnerProgress :=
  match r.run batch with
  | (r, none) => (r, .ok r.progress)
  | (r, some e) => (r, .error (.batch e))

/-- The state of a decomposition in batches, as an answer. -/
def runnerAnswer (r : Runner) : DecomposeAnswer := ⟨r.graph, r.isDone, r.steps⟩

variable [Scalar F]

/-- Solves equations. -/
def solve (d : Document F) : Except (Failure F) (Solution F) := do
  let request : SolveRequest F ← decoded .solveRequest (SolveRequest.ofDocument? d)
  (solveEquations request.equations request.assignment request.options).mapError
    (.solving request.equations.length)

/-- Builds the equations of constraints. -/
def buildEquations (d : Document F) : Except (Failure F) (List String) := do
  let constraints : List (Constraint F) ←
    decoded .constraints (d.listOf? Constraint.ofDocument?)
  (Constraint.allEquations constraints).mapError .building

end Request

end Drafting
