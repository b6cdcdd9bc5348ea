import Mathlib
import Drafting.Proofs.Graph.Components

namespace Drafting

open Relation

/-!
# The components share out a graph

Each node is in one component, and what is connected is together.  Components are looked for from
one place after the other, so that each of them holds a place that comes before all places of the
later ones: the place from which it was found.

* `Adjacency.InOrder` — components in the order of their first places, kept by each step;
* `Graph.SharedOut` — parts of a graph that have its nodes and edges between them;
* `Graph.components_sharedOut` — the components are such parts.
-/

namespace Adjacency

variable {n : Nat} {adjacency : Adjacency n} {marks : Vector Bool n} {cs : List (List (Fin n))}

/-- Components that have been looked for from all places but those in `starts`: each of them holds a
    place from which it was found, and one that comes before all places of the later ones. -/
structure InOrder (starts : List (Fin n)) (cs : List (List (Fin n))) : Prop where
  covered : ∀ x, x ∉ starts → x ∈ cs.flatten
  begun : ∀ c ∈ cs, ∃ x ∈ c, x ∉ starts
  ordered : cs.Pairwise fun c d => ∃ x ∈ c, ∀ y ∈ d, x < y

/-- The next place. -/
theorem InOrder.addComponent {start : Fin n} {rest : List (Fin n)} (h : Partial adjacency marks cs)
    (ho : InOrder (start :: rest) cs) (fresh : start ∉ rest)
    (before : ∀ x, x ∉ start :: rest → ∀ y ∈ start :: rest, x < y) :
    InOrder rest (adjacency.addComponent (marks, cs) start).2 := by
  have fewer (x : Fin n) (hx : x ∉ start :: rest) : x ∉ rest :=
    fun hmem => hx (List.mem_cons_of_mem start hmem)
  have begun : ∀ c ∈ cs, ∃ x ∈ c, x ∉ rest := by
    intro c hc
    obtain ⟨x, hxc, hx⟩ := ho.begun c hc
    exact ⟨x, hxc, fewer x hx⟩
  have covered (x : Fin n) (hx : x ∉ rest) (hne : x ≠ start) : x ∈ cs.flatten :=
    ho.covered x fun hmem => hx ((List.mem_cons.mp hmem).resolve_left hne)
  rcases h.addComponent_cases start with ⟨hstart, heq⟩ | ⟨-, marks', found, heq, done⟩
  · rw [heq]
    refine ⟨fun x hx => ?_, begun, ho.ordered⟩
    by_cases hne : x = start
    · exact hne ▸ hstart
    · exact covered x hx hne
  · rw [heq]
    have start_mem : start ∈ found := by simpa using done.start_mem
    refine { covered := fun x hx => ?_, begun := fun c hc => ?_, ordered := ?_ }
    · rw [List.flatten_append, List.mem_append, List.flatten_singleton]
      by_cases hne : x = start
      · exact .inr (hne ▸ start_mem)
      · exact .inl (covered x hx hne)
    · rcases List.mem_append.mp hc with hc | hc
      · exact begun c hc
      · exact ⟨start, List.mem_singleton.mp hc ▸ start_mem, fresh⟩
    · refine List.pairwise_append.mpr ⟨ho.ordered, List.pairwise_singleton _ _, fun c hc d hd => ?_⟩
      obtain rfl := List.mem_singleton.mp hd
      obtain ⟨x, hxc, hx⟩ := ho.begun c hc
      refine ⟨x, hxc, fun y hy => before x hx y ?_⟩
      -- the places of the new component were in none before
      by_contra hcovered
      exact done.fresh y (by simpa using hy) (ho.covered y hcovered)

/-- All places, in ascending order. -/
theorem InOrder.foldl_addComponent (hsymm : adjacency.IsSymmetric) {starts : List (Fin n)}
    (h : Partial adjacency marks cs) (ho : InOrder starts cs) (sorted : starts.Pairwise (· < ·))
    (before : ∀ x, x ∉ starts → ∀ y ∈ starts, x < y) :
    InOrder [] (starts.foldl adjacency.addComponent (marks, cs)).2 := by
  induction starts generalizing marks cs with
  | nil => exact ho
  | cons start rest ih =>
    obtain ⟨first, sorted⟩ := List.pairwise_cons.mp sorted
    have fresh : start ∉ rest := fun hmem => lt_irrefl start (first start hmem)
    refine ih (h.addComponent hsymm start).1 (ho.addComponent h fresh before) sorted ?_
    intro x hx y hy
    by_cases hne : x = start
    · exact hne ▸ first y hy
    · exact before x (by simp [hne, hx]) y (List.mem_cons_of_mem start hy)

/-- **The order of the components.**  Each component has a place before all places of the later
    ones. -/
theorem components_ordered (hsymm : adjacency.IsSymmetric) :
    adjacency.components.Pairwise fun c d => ∃ x ∈ c, ∀ y ∈ d, x < y := by
  have all (x : Fin n) (hx : x ∉ List.finRange n) : False := hx (List.mem_finRange x)
  have begin : InOrder (List.finRange n) [] := ⟨fun x hx => (all x hx).elim, nofun, .nil⟩
  refine (begin.foldl_addComponent hsymm .nil (List.pairwise_lt_finRange n) ?_).ordered
  exact fun x hx => (all x hx).elim

end Adjacency

namespace Graph

variable {g : Graph}

/-- The place in the list of nodes where the first node of a part stands. -/
def firstPlace (g part : Graph) : Nat := g.nodes.findIdx fun node => part.ids.contains node.id

/-- Graphs that share out the nodes and edges of a graph. -/
structure SharedOut (g : Graph) (parts : List Graph) : Prop where
  /-- Each node is in one part, and once in it. -/
  nodes : (parts.flatMap Graph.nodes).Perm g.nodes ∧ (parts.flatMap Graph.nodes).Nodup
  nonempty : ∀ c ∈ parts, c.nodes ≠ []
  connected : ∀ u ∈ g.ids, ∀ v ∈ g.ids, (∃ c ∈ parts, u ∈ c.ids ∧ v ∈ c.ids) ↔ g.Connected u v
  /-- An edge between known nodes has both ends in one part. -/
  together : ∀ e ∈ g.edges, e.source ∈ g.ids → e.target ∈ g.ids →
    ∃ c ∈ parts, e.source ∈ c.ids ∧ e.target ∈ c.ids
  /-- The edges of a part are those between its nodes, as often and in the order in which they
      occur. -/
  edges : ∀ c ∈ parts, c.edges = g.edges.filter fun e => e.source ∈ c.ids ∧ e.target ∈ c.ids
  ordered : parts.Pairwise fun c d => g.firstPlace c < g.firstPlace d

namespace Distinct

variable (h : g.Distinct)
include h

/-- A part with a place before all places of another one has its first node before it. -/
theorem firstPlace_lt {c d : List (Fin g.size)} {x : Fin g.size} (hx : x ∈ c)
    (hd : ∀ y ∈ d, x < y) : g.firstPlace (g.induced c) < g.firstPlace (g.induced d) := by
  have here : g.firstPlace (g.induced c) ≤ x := by
    by_contra hlater
    have outside : (g.induced c).ids.contains (g.idAt x) = false :=
      List.not_of_lt_findIdx (Nat.not_le.mp hlater)
    rw [h.contains_idAt, List.contains_iff_mem.mpr hx] at outside
    cases outside
  have there : (x : Nat) < g.firstPlace (g.induced d) := by
    refine List.lt_findIdx_of_not x.isLt fun j hj => ?_
    show ¬ (g.induced d).ids.contains (g.idAt ⟨j, hj.trans_lt x.isLt⟩) = true
    rw [h.contains_idAt, List.contains_iff_mem]
    exact fun inside => absurd (hd _ inside) (not_lt.mpr hj)
  exact here.trans_lt there

end Distinct

/-- **The components share out the graph**: its nodes, each of them once, with what is connected in
    one component, and the edges between known nodes.  They come in the order of their first
    nodes. -/
theorem components_sharedOut (g : Graph) (h : g.Distinct) : g.SharedOut g.components := by
  refine {
    nodes := ?_, nonempty := ?_, connected := ?_, together := ?_, edges := ?_, ordered := ?_ }
  · exact ⟨g.components_nodes, g.components_nodes.nodup_iff.mpr h.nodes_nodup⟩
  · intro c hc hnil
    exact ids_ne_nil_of_component hc (by rw [ids, hnil, List.map_nil])
  · intro u hu v hv
    constructor
    · rintro ⟨c, hc, huc, hvc⟩
      exact (h.mem_component_iff hc huc).mp hvc
    · intro path
      obtain ⟨c, hc, huc⟩ := exists_component hu
      exact ⟨c, hc, huc, (h.mem_component_iff hc huc).mpr path⟩
  · intro e he hs ht
    obtain ⟨c, hc, hsc⟩ := exists_component hs
    -- an edge lies in the component of its ends
    have joined : g.Joined e.source e.target :=
      ⟨hs, ht, e, he, Edge.connects_iff.mpr (.inl ⟨rfl, rfl⟩)⟩
    exact ⟨c, hc, hsc, (h.mem_component_iff hc hsc).mpr (.single joined)⟩
  · intro c hc
    rw [h.component_edges hc]
    exact List.filter_congr fun e _ => by simp
  · refine List.pairwise_map.mpr ?_
    refine (Adjacency.components_ordered g.adjacency_isSymmetric).imp ?_
    rintro c d ⟨x, hx, hd⟩
    exact h.firstPlace_lt hx hd

/-- Two components with their nodes in turns, a parallel edge, a loop and an edge to an unknown
    node. -/
def interleaved : Graph where
  nodes := [⟨"a", .point⟩, ⟨"x", .line⟩, ⟨"b", .point⟩, ⟨"y", .point⟩, ⟨"lonely", .point⟩]
  edges := [⟨"xy", .angle, "x", "y"⟩, ⟨"ab", .distance, "a", "b"⟩, ⟨"yy", .connection, "y", "y"⟩,
    ⟨"bz", .distance, "b", "z"⟩, ⟨"ba", .distance, "b", "a"⟩]

/-- Two components whose nodes take turns, and a node alone. -/
theorem components_sharedOut_interleaved :
    interleaved.Distinct ∧ interleaved.SharedOut interleaved.components ∧
      interleaved.components.map ids = [["a", "b"], ["x", "y"], ["lonely"]] ∧
      interleaved.components.map (fun c => c.edges.map Edge.id) =
        [["ab", "ba"], ["xy", "yy"], []] := by
  have distinct : interleaved.Distinct := by decide
  exact ⟨distinct, components_sharedOut interleaved distinct, by cbv, by cbv⟩

end Graph

end Drafting
