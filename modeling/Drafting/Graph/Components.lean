import Drafting.Graph.Basic

namespace Drafting

/-!
# Connected components

A component is explored with a stack: the place on top is taken off and listed, and its neighbours
that are not marked yet are marked and put on the stack, the first of them on top.  Components come
in the order of their first nodes, and the edges of a component in the order of the graph.
-/

namespace Adjacency

variable {n : Nat}

/-- How many places are not marked. -/
def unmarked (marks : Vector Bool n) : Nat := marks.countP (!·)

/-- Marks a place and puts it on the stack, unless it is marked. -/
def visit (j : Fin n) (s : Vector Bool n × List (Fin n)) : Vector Bool n × List (Fin n) :=
  if s.1.get j then s else (s.1.set j true j.isLt, j :: s.2)

/-- Marking a place that is not marked leaves one unmarked place less. -/
theorem unmarked_set {marks : Vector Bool n} {j : Fin n} (h : marks.get j = false) :
    unmarked (marks.set j true j.isLt) + 1 = unmarked marks := by
  have pos : 0 < marks.countP (!·) := by
    rw [Vector.countP_pos_iff]
    exact ⟨marks.get j, Vector.getElem_mem j.isLt, by simp [h]⟩
  have hj : marks[(j : Nat)] = false := h
  simp only [unmarked, Vector.countP_set, hj, Bool.not_false, Bool.not_true, if_true,
    Bool.false_eq_true, if_false]
  omega

/-- Putting places on the stack never outweighs marking them twice. -/
theorem foldr_visit_le (js : List (Fin n)) (s : Vector Bool n × List (Fin n)) :
    2 * unmarked (js.foldr visit s).1 + (js.foldr visit s).2.length
      ≤ 2 * unmarked s.1 + s.2.length := by
  induction js with
  | nil => exact Nat.le_refl _
  | cons j js ih =>
    simp only [List.foldr_cons]
    generalize js.foldr visit s = t at ih ⊢
    unfold visit
    split
    · exact ih
    · next h =>
      have := unmarked_set (Bool.eq_false_iff.mpr h)
      simp only [List.length_cons]
      omega

/-- The places reached from the stack, in the order in which they leave it; `found` lists those
    that have left it, last one first.  The marks tell which places have been on the stack. -/
def explore (adjacency : Adjacency n) (marks : Vector Bool n) (stack found : List (Fin n)) :
    Vector Bool n × List (Fin n) :=
  match stack with
  | [] => (marks, found.reverse)
  | i :: rest =>
    let next := (adjacency.get i).foldr visit (marks, rest)
    explore adjacency next.1 next.2 (i :: found)
termination_by 2 * unmarked marks + stack.length
decreasing_by
  have := foldr_visit_le (adjacency.get i) (marks, rest)
  simp only [List.length_cons] at this ⊢
  omega

/-- Adds the component of a place to the components found, unless it is in one of them. -/
def addComponent (adjacency : Adjacency n) (s : Vector Bool n × List (List (Fin n)))
    (start : Fin n) : Vector Bool n × List (List (Fin n)) :=
  if s.1.get start then s
  else
    let (marks, component) := adjacency.explore (s.1.set start true start.isLt) [start] []
    (marks, s.2 ++ [component])

/-- The components, as lists of places. -/
def components (adjacency : Adjacency n) : List (List (Fin n)) :=
  ((List.finRange n).foldl adjacency.addComponent (Vector.replicate n false, [])).2

end Adjacency

namespace Graph

/-- The part of a graph at some of its places: the nodes there, and the edges between them. -/
def induced (g : Graph) (places : List (Fin g.size)) : Graph where
  nodes := places.map g.nodeAt
  edges := g.edges.filter fun e =>
    match g.ends? e with
    | some (s, t) => places.contains s && places.contains t
    | none => false

/-- The connected components of a graph. -/
def components (g : Graph) : List Graph := g.adjacency.components.map g.induced

end Graph

end Drafting
