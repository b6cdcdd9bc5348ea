import Drafting.Constraint
import Drafting.Editor.Document
import Drafting.Graph.Basic
import Drafting.Relaxation.Solve

namespace Drafting

/-!
# Reading domain data from documents

How graphs, constraints, settings and solve requests are written down: the names of their fields in
their order, the names of their kinds, and which fields may be left out.
-/

variable {F : Type}

/-! ### Graphs -/

namespace NodeKind

/-- The name of a kind of node. -/
def name : NodeKind → String
  | .point => "point"
  | .line => "line"

/-- The kind with this name. -/
def ofName? (s : String) : Option NodeKind := [point, line].find? (·.name == s)

theorem ofName?_name (k : NodeKind) : ofName? k.name = some k := by cases k <;> decide

end NodeKind

namespace EdgeKind

/-- The name of a kind of edge. -/
def name : EdgeKind → String
  | .distance => "distance"
  | .angle => "angle"
  | .connection => "connection"
  | .virtual => "virtual"

/-- The kind with this name. -/
def ofName? (s : String) : Option EdgeKind :=
  [distance, angle, connection, virtual].find? (·.name == s)

theorem ofName?_name (k : EdgeKind) : ofName? k.name = some k := by cases k <;> decide

end EdgeKind

/-- Reads a node. -/
def Node.ofDocument? (d : Document F) : Option Node := do
  let fields : Fields F ← d.record? ["id", "type"]
  let id ← fields.required "id" Document.text?
  let kind ← fields.required "type" (·.case?.bind NodeKind.ofName?)
  return ⟨id, kind⟩

/-- Reads an edge. -/
def Edge.ofDocument? (d : Document F) : Option Edge := do
  let fields : Fields F ← d.record? ["id", "type", "source", "target"]
  let id ← fields.required "id" Document.text?
  let kind ← fields.required "type" (·.case?.bind EdgeKind.ofName?)
  let source ← fields.required "source" Document.text?
  let target ← fields.required "target" Document.text?
  return ⟨id, kind, source, target⟩

/-- Reads a graph. -/
def Graph.ofDocument? (d : Document F) : Option Graph := do
  let fields : Fields F ← d.record? ["nodes", "edges"]
  let nodes ← fields.required "nodes" (Document.listOf? Node.ofDocument?)
  let edges ← fields.required "edges" (Document.listOf? Edge.ofDocument?)
  return ⟨nodes, edges⟩

variable [Scalar F]

/-! ### Constraints -/

/-- The fields of the constraints that are called `kind`. -/
def Constraint.fieldNames : (kind : String) → List String
  | "distance" => ["a", "b", "distance"]
  | "pointOnLine" => ["point", "lineStart", "lineEnd", "distance"]
  | "equalLength" | "parallel" => ["a0", "a1", "b0", "b1"]
  | "coincident" | "horizontal" | "vertical" => ["a", "b"]
  | "fix" => ["point", "x", "y"]
  | _ => []

/-- Reads a constraint; the field `type` tells which. -/
def Constraint.ofDocument? (d : Document F) : Option (Constraint F) := do
  let (kind, parameters) ← d.tagged?
  let fields : Fields F ← parameters.record? (fieldNames kind)
  let text (name : String) := fields.required name Document.text?
  let scalar (name : String) := fields.required name Document.scalar?
  match kind with
  | "distance" => return .distance (← text "a") (← text "b") (← scalar "distance")
  | "pointOnLine" =>
    return .pointOnLine (← text "point") (← text "lineStart") (← text "lineEnd")
      (← scalar "distance")
  | "equalLength" =>
    return .equalLength (← text "a0") (← text "a1") (← text "b0") (← text "b1")
  | "parallel" => return .parallel (← text "a0") (← text "a1") (← text "b0") (← text "b1")
  | "coincident" => return .coincident (← text "a") (← text "b")
  | "horizontal" => return .horizontal (← text "a") (← text "b")
  | "vertical" => return .vertical (← text "a") (← text "b")
  | "fix" => return .fix (← text "point") (← scalar "x") (← scalar "y")
  | _ => none

/-! ### Solving -/

/-- Reads the settings of the least-squares solver; all fields have defaults. -/
def Settings.ofDocument? (d : Document F) : Option (Settings F) := do
  let fields : Fields F ←
    d.record? ["initialLambda", "lambdaUp", "lambdaDown", "epsilon", "maxSteps"]
  let scalar (name : String) (default : F) := fields.optional name Document.scalar? default
  let default : Settings F := .default
  return {
    initialDamping := ← scalar "initialLambda" default.initialDamping
    raise := ← scalar "lambdaUp" default.raise
    lower := ← scalar "lambdaDown" default.lower
    epsilon := ← scalar "epsilon" default.epsilon
    maxSteps := ← fields.nullable "maxSteps" Document.natural? }

/-- Reads what a name is replaced by: a number, or the name of a variable. -/
def Substitution.ofDocument? : Document F → Option (Substitution F)
  | .text name => some (.variable name)
  | d => d.scalar?.map .value

/-- Reads the replacements of names, an object. -/
def Substitutions.ofDocument? (d : Document F) : Option (Substitutions F) := do
  let fields : Fields F ← d.fields?
  return Keyed.ofList (← fields.entries? Substitution.ofDocument?)

/-- Reads the options for solving equations; all fields have defaults. -/
def SolveOptions.ofDocument? (d : Document F) : Option (SolveOptions F) := do
  let fields : Fields F ← d.record? ["forwardSubs", "epsilon", "maxSteps"]
  return {
    forwardSubs := ← fields.optional "forwardSubs" Substitutions.ofDocument? Keyed.empty
    epsilon := ← fields.optional "epsilon" Document.scalar? Settings.defaultEpsilon
    maxSteps := ← fields.nullable "maxSteps" Document.natural? }

/-- Reads an assignment, an object. -/
def assignmentOfDocument? (d : Document F) : Option (Keyed F) := do
  let fields : Fields F ← d.fields?
  return Keyed.ofList (← fields.entries? Document.scalar?)

/-- Equations to be solved, from the values of an editor. -/
structure SolveRequest (F : Type) where
  equations : List String
  assignment : Keyed F
  options : SolveOptions F

/-- Reads a solve request; the options may be null or missing. -/
def SolveRequest.ofDocument? (d : Document F) : Option (SolveRequest F) := do
  let fields : Fields F ← d.record? ["constraintEqs", "variables", "forwardSub"]
  let equations ← fields.required "constraintEqs" (Document.listOf? Document.text?)
  let assignment ← fields.required "variables" assignmentOfDocument?
  let options ← fields.nullable "forwardSub" SolveOptions.ofDocument?
  return ⟨equations, assignment, options.getD .default⟩

end Drafting
