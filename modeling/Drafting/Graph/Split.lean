import Drafting.Graph.Components
import Drafting.Graph.LowLink

namespace Drafting

/-!
# Splitting a graph

To split a graph at a node is to take the node out and to give each remaining component that was
joined to it a clone of its own.  To split at a pair is to take the first node out, to split at the
second, to put the first back, and to split at it; a component that still has an articulation point
after that gets a link between its clones of the two, so that their relation is kept.
-/

/-- Why a graph cannot be decomposed. -/
inductive DecomposeError where
  | unknownNode (id : String)
  | incomplete (steps : Nat) (graph : Graph)
  deriving DecidableEq, Repr

/-- The sentence for a failed decomposition. -/
def DecomposeError.message : DecomposeError → String
  | .unknownNode id => "Node \"" ++ id ++ "\" is not in the graph"
  | .incomplete steps _ =>
    "Decomposition stopped after " ++ toString steps ++ " steps with articulation pairs left"

/-- The link that a second split adds: the first split's node and clones, and the kind of the
    edge. -/
structure PairLink where
  partner : String
  clones : List String
  kind : EdgeKind
  deriving DecidableEq, Repr

/-- A component after a split, and its clone of the node split at, if it has one. -/
structure Piece where
  graph : Graph
  clone : Option String
  deriving DecidableEq, Repr

namespace Graph

/-- The name of the clone in component `i`. -/
def cloneId (pivot : String) (i : Nat) : String := pivot ++ "_" ++ toString i

/-- The name of the link in component `i`. -/
def linkId (partner : String) (i : Nat) : String := partner ++ "_virtual_edge_" ++ toString i

/-- An edge between `pivot` and a member, moved to `clone`. -/
def reattach? (pivot clone : String) (members : List String) (e : Edge) : Option Edge :=
  if e.source = pivot ∧ e.target ∈ members then some { e with source := clone }
  else if e.target = pivot ∧ e.source ∈ members then some { e with target := clone }
  else none

/-- The links of a component: one from its clone to the partner's, if it has an articulation point
    and a clone of the partner. -/
def links (component : Graph) (clone : String) (i : Nat) (link : PairLink) : List Edge :=
  if component.hasArticulationPoint then
    match component.nodes.find? fun node => link.clones.contains node.id with
    | some partner => [⟨linkId link.partner i, link.kind, clone, partner.id⟩]
    | none => []
  else []

/-- Component `i` after the split at `pivot`; `edges` are the edges of the graph that is split. -/
def piece (edges : List Edge) (pivot : Node) (link : Option PairLink) (component : Graph)
    (i : Nat) : Piece :=
  let clone := cloneId pivot.id i
  match edges.filterMap (reattach? pivot.id clone (component.nodes.map Node.id)) with
  | [] => ⟨component, none⟩
  | reattached =>
    let joined : Graph :=
      ⟨component.nodes ++ [⟨clone, pivot.kind⟩], component.edges ++ reattached⟩
    ⟨⟨joined.nodes, joined.edges ++ link.elim [] (joined.links clone i)⟩, some clone⟩

/-- The components after the split at a node. -/
def pieces (g : Graph) (pivot : Node) (link : Option PairLink) : List Piece :=
  (g.without pivot.id).components.mapIdx fun i component => piece g.edges pivot link component i

/-- All pieces side by side. -/
def ofPieces (ps : List Piece) : Graph := (ps.map Piece.graph).foldl append empty

/-- The node named `id`, which has to be there. -/
def getNode (g : Graph) (id : String) : Except DecomposeError Node :=
  match g.node? id with
  | some node => .ok node
  | none => .error (.unknownNode id)

/-- The graph split at the node `point`. -/
def splitAt (g : Graph) (point : String) : Except DecomposeError Graph := do
  return ofPieces (g.pieces (← g.getNode point) none)

/-- The kind of the links between the clones of `a` and `b`: that of the first edge between the
    two, if there is one. -/
def linkKind (g : Graph) (a b : String) : EdgeKind :=
  ((g.edges.find? (·.connects a b)).map Edge.kind).getD .virtual

/-- The graph split at the pair of `first` and `second`. -/
def splitAtPair (g : Graph) (first second : String) : Except DecomposeError Graph := do
  let firstNode ← g.getNode first
  let rest := g.without first
  let halves := rest.pieces (← rest.getNode second) none
  let rejoined := (ofPieces halves).append ⟨[firstNode], g.edgesAt first⟩
  let link : PairLink := ⟨second, halves.filterMap Piece.clone, g.linkKind first second⟩
  return ofPieces (rejoined.pieces (← rejoined.getNode first) link)

end Graph

end Drafting
