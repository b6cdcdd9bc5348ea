import Drafting.Graph.Basic

namespace Drafting

/-!
# Cut vertices

A depth-first search that finds the places whose removal separates two of their neighbours.  Each
place gets its depth in the search tree and its low value, the least depth that an edge from its
subtree reaches.  A place below the root is a cut vertex iff the subtree of one of its children
reaches no higher than the place itself; the root is one iff it has more than one child.

The search is a machine: the path from the root to the current place is kept as a list of visits,
and one step looks at one neighbour or leaves one place.  Each step brings it closer to its end
(`step_decreases`), so that it needs no bound.
-/

/-- A place on the current path: how deep it is, which of its neighbours are still to be looked
    at, how many children it has, and whether the subtree of one of them stays below it. -/
structure Visit (n : Nat) where
  place : Fin n
  depth : Nat
  pending : List (Fin n)
  children : Nat
  isCut : Bool

/-- The state of the search: depths of the places discovered, low values, parents in the search
    tree, the cut vertices found (last one first), and the current path (deepest place first). -/
structure LowLink (n : Nat) where
  depth : Vector (Option Nat) n
  low : Vector Nat n
  parent : Vector (Option (Fin n)) n
  points : List (Fin n)
  path : List (Visit n)

namespace LowLink

variable {n : Nat}

/-- Nothing is discovered. -/
def start : LowLink n where
  depth := Vector.replicate n none
  low := Vector.replicate n 0
  parent := Vector.replicate n none
  points := []
  path := []

/-- Makes a place the deepest of the path. -/
def enter (adjacency : Adjacency n) (s : LowLink n) (place : Fin n) (depth : Nat)
    (parent : Option (Fin n)) (path : List (Visit n)) : LowLink n :=
  { s with
    depth := s.depth.set place (some depth) place.isLt
    low := s.low.set place depth place.isLt
    parent := s.parent.set place parent place.isLt
    path := ⟨place, depth, adjacency.get place, 0, false⟩ :: path }

/-- Lowers the low value of a place to `depth`, if that is less. -/
def lower (s : LowLink n) (place : Fin n) (depth : Nat) : LowLink n :=
  { s with low := s.low.set place (Nat.min (s.low.get place) depth) place.isLt }

/-- Looks at the neighbour `next` of the deepest place `v`: a new place is entered, a known one
    lowers the low value of `v`, unless it is the parent of `v`. -/
def look (adjacency : Adjacency n) (s : LowLink n) (v : Visit n) (next : Fin n)
    (pending : List (Fin n)) (path : List (Visit n)) : LowLink n :=
  match s.depth.get next with
  | none =>
    s.enter adjacency next (v.depth + 1) (some v.place)
      ({ v with pending, children := v.children + 1 } :: path)
  | some depth =>
    let s := { s with path := { v with pending } :: path }
    if s.parent.get v.place = some next then s else s.lower v.place depth

/-- Is a place that has been searched a cut vertex? -/
def isPoint (s : LowLink n) (v : Visit n) : Bool :=
  if (s.parent.get v.place).isNone then 1 < v.children else v.isCut

/-- Leaves the deepest place `v`, and reports to the place above it. -/
def leave (s : LowLink n) (v : Visit n) (path : List (Visit n)) : LowLink n :=
  let s := { s with points := if s.isPoint v then v.place :: s.points else s.points }
  match path with
  | [] => { s with path := [] }
  | up :: above =>
    { s with path := { up with isCut := up.isCut || up.depth ≤ s.low.get v.place } :: above }.lower
      up.place (s.low.get v.place)

/-- One step, as long as the path is not empty. -/
def step (adjacency : Adjacency n) (s : LowLink n) : Option (LowLink n) :=
  match s.path with
  | [] => none
  | v :: path =>
    match v.pending with
    | next :: pending => some (s.look adjacency v next pending path)
    | [] => some (s.leave v path)

/-! ### The search ends -/

/-- How many places are not discovered. -/
def undiscovered (s : LowLink n) : Nat := s.depth.countP (·.isNone)

/-- How many neighbours are to be looked at and places to be left on the path. -/
def work (s : LowLink n) : Nat := s.path.foldr (fun v sum => v.pending.length + 1 + sum) 0

/-- Entering a new place leaves fewer places undiscovered. -/
theorem undiscovered_enter {adjacency : Adjacency n} {s : LowLink n} {place : Fin n}
    (h : s.depth.get place = none) (depth : Nat) (parent : Option (Fin n)) (path : List (Visit n)) :
    (s.enter adjacency place depth parent path).undiscovered < s.undiscovered := by
  have pos : 0 < s.depth.countP (·.isNone) := by
    rw [Vector.countP_pos_iff]
    exact ⟨s.depth.get place, Vector.getElem_mem place.isLt, by simp [h]⟩
  have hp : s.depth[(place : Nat)] = none := h
  simp only [undiscovered, enter, Vector.countP_set, hp, Option.isNone_none, Option.isNone_some,
    if_true, Bool.false_eq_true, if_false]
  omega

/-- Looking at a neighbour discovers a place, or leaves less to look at. -/
theorem look_decreases {adjacency : Adjacency n} {s : LowLink n} {v : Visit n} {next : Fin n}
    {pending : List (Fin n)} {path : List (Visit n)} (hpath : s.path = v :: path)
    (hpending : v.pending = next :: pending) :
    Prod.Lex (· < ·) (· < ·)
      ((s.look adjacency v next pending path).undiscovered,
        (s.look adjacency v next pending path).work)
      (s.undiscovered, s.work) := by
  unfold look
  split
  · next hdepth => exact Prod.Lex.left _ _ (undiscovered_enter hdepth _ _ _)
  · dsimp only
    split <;> exact Prod.Lex.right _ (by simp [work, lower, hpath, hpending])

/-- Leaving a place leaves less to do on the path. -/
theorem leave_decreases {s : LowLink n} {v : Visit n} {path : List (Visit n)}
    (hpath : s.path = v :: path) :
    Prod.Lex (· < ·) (· < ·) ((s.leave v path).undiscovered, (s.leave v path).work)
      (s.undiscovered, s.work) := by
  unfold leave
  cases path <;> exact Prod.Lex.right _ (by simp [work, lower, hpath])

/-- A step discovers a place, or leaves less to do on the path. -/
theorem step_decreases {adjacency : Adjacency n} {s s' : LowLink n}
    (h : s.step adjacency = some s') :
    Prod.Lex (· < ·) (· < ·) (s'.undiscovered, s'.work) (s.undiscovered, s.work) := by
  unfold step at h
  split at h
  · cases h
  · next v path hpath =>
    split at h
    · next next pending hpending => cases h; exact look_decreases hpath hpending
    · cases h; exact leave_decreases hpath

/-- All steps. -/
def run (adjacency : Adjacency n) (s : LowLink n) : LowLink n :=
  match _next : s.step adjacency with
  | none => s
  | some s' => run adjacency s'
termination_by (s.undiscovered, s.work)
decreasing_by exact step_decreases _next

/-- Searches what can be reached from `root`. -/
def search (adjacency : Adjacency n) (s : LowLink n) (root : Fin n) : LowLink n :=
  (s.enter adjacency root 0 none []).run adjacency

/-- Searches from `root`, unless it is discovered. -/
def searchNew (adjacency : Adjacency n) (s : LowLink n) (root : Fin n) : LowLink n :=
  if (s.depth.get root).isNone then s.search adjacency root else s

end LowLink

/-- The cut vertices, in the order in which the search leaves them. -/
def Adjacency.cutVertices {n : Nat} (adjacency : Adjacency n) : List (Fin n) :=
  ((List.finRange n).foldl (LowLink.searchNew adjacency) LowLink.start).points.reverse

namespace Graph

/-- The names of the nodes whose removal separates two other nodes. -/
def articulationPoints (g : Graph) : List String :=
  g.adjacency.cutVertices.map fun i => (g.nodeAt i).id

/-- The graph has a node whose removal separates two others. -/
def hasArticulationPoint (g : Graph) : Bool := !g.articulationPoints.isEmpty

/-- Two names, the smaller one first. -/
def sortedPair (a b : String) : String × String := if b < a then (b, a) else (a, b)

/-- The pairs of nodes one of which is an articulation point once the other is removed.  Each pair
    is listed once, where it is first found. -/
def articulationPairs (g : Graph) : List (String × String) :=
  (g.nodes.flatMap fun node =>
    (g.without node.id).articulationPoints.map (sortedPair node.id)).eraseDups

end Graph

end Drafting
