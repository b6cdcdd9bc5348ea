import Drafting.Graph.Split

namespace Drafting

/-!
# Decomposition

Splitting at the first articulation pair, again and again until no pair is left: in one go with a
limit on the number of steps, or in batches with a `Runner`.
-/

/-- A graph and the number of splits that led to it. -/
structure Decomposition where
  graph : Graph
  steps : Nat
  deriving DecidableEq, Repr

namespace Graph

/-- The graph split at its first articulation pair; without one it stays what it is. -/
def splitFirst (g : Graph) : Except DecomposeError Graph :=
  match g.articulationPairs with
  | (a, b) :: _ => g.splitAtPair a b
  | [] => .ok g

/-- Splits until no articulation pair is left, at most `limit` times; `steps` splits have been
    made before. -/
def decomposeFrom : (limit steps : Nat) → Graph → Except DecomposeError Decomposition
  | 0, steps, g =>
    if g.articulationPairs.isEmpty then .ok ⟨g, steps⟩ else .error (.incomplete steps g)
  | limit + 1, steps, g =>
    match g.articulationPairs with
    | [] => .ok ⟨g, steps⟩
    | (a, b) :: _ => do decomposeFrom limit (steps + 1) (← g.splitAtPair a b)

/-- Splits until no articulation pair is left, at most `limit` times. -/
def decomposeWithin (limit : Nat) (g : Graph) : Except DecomposeError Decomposition :=
  decomposeFrom limit 0 g

/-- How many splits are made without being asked for a limit. -/
def maxSteps : Nat := 10000

/-- Splits until no articulation pair is left. -/
def decompose (g : Graph) : Except DecomposeError Decomposition := g.decomposeWithin maxSteps

end Graph

/-! ### In batches -/

/-- A decomposition under way: the graph it has reached and the articulation pairs of that graph.
    Whether it is done was noted when it started or at the end of a batch. -/
structure Runner where
  graph : Graph
  pairs : List (String × String)
  steps : Nat
  maxSteps : Nat
  isDone : Bool

/-- How far a decomposition under way has come. -/
structure RunnerProgress where
  done : Bool
  steps : Nat
  maxSteps : Nat
  remainingPairs : Nat
  deriving DecidableEq, Repr

/-- Why a batch broke off. -/
inductive BatchError where
  /-- The steps are used up and pairs are left. -/
  | stepsUsedUp (maxSteps remaining : Nat)
  | failed (error : DecomposeError)

/-- The sentence for a batch that broke off. -/
def BatchError.message : BatchError → String
  | .stepsUsedUp maxSteps remaining =>
    "Decomposition did not finish in " ++ toString maxSteps ++ " steps (" ++ toString remaining
      ++ " articulation pairs left)."
  | .failed error => error.message

namespace Runner

/-- A runner before its first split. -/
def start (g : Graph) (maxSteps : Nat) : Runner :=
  let pairs := g.articulationPairs
  ⟨g, pairs, 0, maxSteps, pairs.isEmpty⟩

/-- The progress to report. -/
def progress (r : Runner) : RunnerProgress := ⟨r.isDone, r.steps, r.maxSteps, r.pairs.length⟩

/-- The runner after a split that led to `g`. -/
def advance (r : Runner) (g : Graph) : Runner :=
  { r with graph := g, pairs := g.articulationPairs, steps := r.steps + 1 }

/-- The end of a batch that did not break off: the runner is done if no pair is left. -/
def settle (r : Runner) : Runner := { r with isDone := r.isDone || r.pairs.isEmpty }

/-- Makes up to `batch` splits.  Splits made before a failure are kept. -/
def run (r : Runner) : (batch : Nat) → Runner × Option BatchError
  | 0 => (r.settle, none)
  | batch + 1 =>
    match r.pairs with
    | [] => (r.settle, none)
    | (a, b) :: _ =>
      if r.maxSteps ≤ r.steps then (r, some (.stepsUsedUp r.maxSteps r.pairs.length))
      else
        match r.graph.splitAtPair a b with
        | .error e => (r, some (.failed e))
        | .ok g => (r.advance g).run batch

end Runner

end Drafting
