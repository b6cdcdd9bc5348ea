namespace Drafting

/-!
# Constraint graphs

The nodes of a constraint graph are the points and lines of a sketch, its edges the relations
between them.  Nodes are known by their names.  A graph is data as it comes: names may repeat, and
edges may mention nodes that are not there.  Where a name repeats, the first node counts; an edge
with an unknown end joins nothing.
-/

/-- What a node stands for. -/
inductive NodeKind where
  | point
  | line
  deriving DecidableEq, Repr

/-- What an edge stands for; a virtual edge stands for no relation of the sketch. -/
inductive EdgeKind where
  | distance
  | angle
  | connection
  | virtual
  deriving DecidableEq, Repr

/-- A node. -/
structure Node where
  id : String
  kind : NodeKind
  deriving DecidableEq, Repr

/-- An edge between the nodes named `source` and `target`; its direction means nothing. -/
structure Edge where
  id : String
  kind : EdgeKind
  source : String
  target : String
  deriving DecidableEq, Repr

/-- A constraint graph. -/
structure Graph where
  nodes : List Node
  edges : List Edge
  deriving DecidableEq, Repr

namespace Edge

/-- Is the node `id` an end of the edge? -/
def touches (e : Edge) (id : String) : Bool := e.source == id || e.target == id

/-- Does the edge join `a` and `b`, one way or the other? -/
def connects (e : Edge) (a b : String) : Bool :=
  (e.source == a && e.target == b) || (e.source == b && e.target == a)

end Edge

namespace Graph

/-- The graph without nodes. -/
def empty : Graph := ⟨[], []⟩

/-- Two graphs side by side. -/
def append (g h : Graph) : Graph := ⟨g.nodes ++ h.nodes, g.edges ++ h.edges⟩

/-- The number of nodes. -/
def size (g : Graph) : Nat := g.nodes.length

/-- The node at a place. -/
def nodeAt (g : Graph) (i : Fin g.size) : Node := g.nodes.get i

/-- The node named `id`. -/
def node? (g : Graph) (id : String) : Option Node := g.nodes.find? (·.id == id)

/-- The graph without the node `id` and the edges at it. -/
def without (g : Graph) (id : String) : Graph :=
  ⟨g.nodes.filter (·.id != id), g.edges.filter (!·.touches id)⟩

/-- The edges at the node `id`. -/
def edgesAt (g : Graph) (id : String) : List Edge := g.edges.filter (·.touches id)

/-- The place of the node named `id`. -/
def index? (g : Graph) (id : String) : Option (Fin g.size) := g.nodes.findFinIdx? (·.id == id)

/-- The places of the two ends of an edge, if both are there. -/
def ends? (g : Graph) (e : Edge) : Option (Fin g.size × Fin g.size) :=
  match g.index? e.source, g.index? e.target with
  | some s, some t => some (s, t)
  | _, _ => none

end Graph

/-- For each of `n` places the places next to it. -/
abbrev Adjacency (n : Nat) := Vector (List (Fin n)) n

namespace Adjacency

/-- The other end of a joint at place `i`. -/
def otherEnd? {n : Nat} (i : Fin n) (joint : Fin n × Fin n) : Option (Fin n) :=
  if joint.1 = i then some joint.2 else if joint.2 = i then some joint.1 else none

/-- The places next to each other because of a list of joints, in the order of the joints.  A
    joint from a place to itself is listed there once. -/
def ofJoints {n : Nat} (joints : List (Fin n × Fin n)) : Adjacency n :=
  Vector.ofFn fun i => joints.filterMap (otherEnd? i)

end Adjacency

/-- The places of a graph that an edge joins. -/
def Graph.adjacency (g : Graph) : Adjacency g.size := .ofJoints (g.edges.filterMap g.ends?)

end Drafting
