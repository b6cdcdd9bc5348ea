import Drafting.Proofs.Graph.PairSplit
import Drafting.Proofs.Graph.Splits

namespace Drafting

open Relation

/-!
# Graphs without articulation pairs

A decomposition looks for pairs alone, never for single articulation points.  But in a graph with
four nodes or more a cut vertex is still one after some other node is removed, and so it shows in a
pair.  What is left when there are no pairs cannot be cut at a node, nor after the loss of one node.

* `Graph.IsPart` — a part of a graph that no edge leads out of, such as a component;
* `Graph.IsPart.isCutVertex` — a cut vertex of a part is a cut vertex of the whole;
* `Graph.IsCutVertex.exists_without` — a cut vertex separates its neighbours without a fourth node;
* `Graph.decomposeWithin_indivisible` — the components of a finished decomposition.
-/

namespace Graph

variable {g h c : Graph} {u v w : String}

/-! ### Parts -/

/-- Some of the nodes and edges of a graph; all that is joined to one of the nodes belongs to it. -/
structure IsPart (h g : Graph) : Prop where
  ids : ∀ u ∈ h.ids, u ∈ g.ids
  edges : ∀ e ∈ h.edges, e ∈ g.edges
  joined : ∀ u ∈ h.ids, ∀ v, g.Joined u v → h.Joined u v

namespace IsPart

/-- Without a node a part is a part of what the graph is without the node. -/
theorem without (hpart : h.IsPart g) (v : String) : (h.without v).IsPart (g.without v) where
  ids u hu := by
    rw [mem_ids_without] at hu ⊢
    exact ⟨hpart.ids u hu.1, hu.2⟩
  edges e he := by
    rw [mem_edges_without] at he ⊢
    exact ⟨hpart.edges e he.1, he.2⟩
  joined u hu w := by
    rw [joined_without, joined_without]
    exact fun hjoined => ⟨hpart.joined u (mem_ids_without.mp hu).1 w hjoined.1, hjoined.2⟩

/-- Paths of the whole that start in a part stay there. -/
theorem connected_iff (hpart : h.IsPart g) (hu : u ∈ h.ids) :
    h.Connected u w ↔ g.Connected u w := by
  refine ⟨fun path => path.mono hpart.ids hpart.edges, fun path => ?_⟩
  refine mem_of_path (S := h.Connected u) (fun x y hx hxy => ?_) path .refl
  exact ReflTransGen.tail hx (hpart.joined x (hx.mem_ids hu) y hxy)

/-- **Parts.**  A cut vertex of a part is a cut vertex of the whole. -/
theorem isCutVertex (hpart : h.IsPart g) (hv : h.IsCutVertex v) : g.IsCutVertex v := by
  obtain ⟨hmem, u, hu, w, hw, huv, hwv, path, hnot⟩ := hv
  refine ⟨hpart.ids v hmem, u, hpart.ids u hu, w, hpart.ids w hw, huv, hwv,
    (hpart.connected_iff hu).mp path, fun path' => hnot ?_⟩
  exact ((hpart.without v).connected_iff (mem_ids_without.mpr ⟨hu, huv⟩)).mpr path'

end IsPart

/-- Components are parts. -/
theorem Distinct.component_isPart (hg : g.Distinct) (hc : c ∈ g.components) : c.IsPart g where
  ids u hu := ids_subset_of_component hc hu
  edges e he := ((hg.mem_component_edges hc).mp he).1
  joined u hu v huv := by
    have hv : v ∈ c.ids := (hg.mem_component_iff hc hu).mpr (.single huv)
    obtain ⟨-, -, e, he, hconn⟩ := huv
    -- both ends of the edge are in the component, and so is the edge
    refine ⟨hu, hv, e, (hg.mem_component_edges hc).mpr ⟨he, ?_⟩, hconn⟩
    rcases Edge.connects_iff.mp hconn with ⟨rfl, rfl⟩ | ⟨rfl, rfl⟩
    · exact ⟨hu, hv⟩
    · exact ⟨hv, hu⟩

/-! ### Cut vertices and pairs -/

/-- A graph with four nodes or more has a node besides any three. -/
theorem Distinct.exists_fourth (hg : g.Distinct) (hsize : 4 ≤ g.size) (u v w : String) :
    ∃ z ∈ g.ids, z ≠ u ∧ z ≠ v ∧ z ≠ w := by
  by_contra hnone
  have within : g.ids ⊆ [u, v, w] := by
    intro z hz
    by_contra hother
    exact hnone ⟨z, hz, by simpa using hother⟩
  have length := (List.subperm_of_subset hg within).length_le
  simp only [ids, List.length_map, List.length_cons, List.length_nil] at length
  exact absurd (hsize.trans length) (by decide)

/-- **A lone cut vertex shows in a pair.**  It separates two of its neighbours, and it does so still
    when a node other than the three is removed. -/
theorem IsCutVertex.exists_without (hv : g.IsCutVertex v) (hg : g.Distinct) (hsize : 4 ≤ g.size) :
    ∃ z ∈ g.ids, (g.without z).IsCutVertex v := by
  obtain ⟨u, w, hu, hw, path, hnot⟩ := isCutVertex_iff.mp hv
  rcases path_cases path hu hw with avoided | ⟨x, y, hx, hxv, hy, hyv, hux, hyw⟩
  · exact absurd avoided hnot
  -- `x` and `y` are neighbours of `v`, and no path without `v` leads from one to the other
  have apart : ¬ ReflTransGen (Avoiding g.Joined v) x y := fun avoided =>
    hnot (hux.trans (avoided.trans hyw))
  obtain ⟨z, hz, hzv, hzx, hzy⟩ := hg.exists_fourth hsize v x y
  refine ⟨z, hz, isCutVertex_iff.mpr ⟨x, y, hxv, hyv, ?_, fun avoided => apart ?_⟩⟩
  · rw [joined_without]
    exact ReflTransGen.tail (.single ⟨hx, hzx.symm, hzv.symm⟩) ⟨hy, hzv.symm, hzy.symm⟩
  · rw [joined_without] at avoided
    exact ReflTransGen.mono (fun _ _ step => ⟨step.1.1, step.2⟩) _ _ avoided

/-- There are no pairs iff no node leaves articulation points behind when it is removed. -/
theorem articulationPairs_eq_nil_iff :
    g.articulationPairs = [] ↔ ∀ w ∈ g.ids, (g.without w).articulationPoints = [] := by
  simp only [articulationPairs, List.eq_nil_iff_forall_not_mem, List.mem_eraseDups,
    List.mem_flatMap, List.mem_map, ids]
  constructor
  · rintro h _ ⟨node, hnode, rfl⟩ v hv
    exact h _ ⟨node, hnode, v, hv, rfl⟩
  · rintro h _ ⟨node, hnode, v, hv, -⟩
    exact h _ ⟨node, hnode, rfl⟩ v hv

/-- Articulation points are missing where there is no cut vertex. -/
theorem Distinct.articulationPoints_eq_nil_iff (hg : g.Distinct) :
    g.articulationPoints = [] ↔ ∀ v, ¬ g.IsCutVertex v := by
  simp only [List.eq_nil_iff_forall_not_mem, hg.mem_articulationPoints]

/-- A graph with four nodes or more has no articulation points if it has no pairs. -/
theorem Distinct.not_isCutVertex_of_pairs (hg : g.Distinct) (hsize : 4 ≤ g.size)
    (hpairs : g.articulationPairs = []) (v : String) : ¬ g.IsCutVertex v := by
  intro hv
  obtain ⟨z, hz, hcut⟩ := hv.exists_without hg hsize
  have none := articulationPairs_eq_nil_iff.mp hpairs z hz
  exact (hg.without z).articulationPoints_eq_nil_iff.mp none v hcut

/-- A decomposition that is finished has no pairs left. -/
theorem articulationPairs_of_decomposeWithin {limit : Nat} {d : Decomposition}
    (h : g.decomposeWithin limit = .ok d) : d.graph.articulationPairs = [] := by
  obtain ⟨k, -, r, -, -, ⟨hdone, heq⟩ | ⟨-, -, heq⟩⟩ := g.decomposeFrom_eq limit 0
  · obtain rfl := Except.ok.inj (h.symm.trans heq)
    exact hdone
  · cases h.symm.trans heq

/-- **Finished decompositions.**  If a decomposition comes to an end with four nodes or more, whose
    names are distinct, then no component has an articulation point, and none gets one when one of
    its nodes is removed.  The reason is that a graph with four nodes or more that has no pairs has
    no articulation points. -/
theorem decomposeWithin_indivisible :
    (∀ (g : Graph) (limit : Nat) (d : Decomposition), g.decomposeWithin limit = .ok d →
      4 ≤ d.graph.size → d.graph.Distinct → ∀ c ∈ d.graph.components,
        c.articulationPoints = [] ∧ ∀ v ∈ c.ids, (c.without v).articulationPoints = []) ∧
    ∀ g : Graph, 4 ≤ g.size → g.Distinct → g.articulationPairs = [] →
      g.articulationPoints = [] := by
  refine ⟨fun g limit d h hsize hdistinct c hc => ?_, fun g hsize hdistinct hpairs => ?_⟩
  · have hpairs := articulationPairs_of_decomposeWithin h
    have hpart := hdistinct.component_isPart hc
    have hcomponent := hdistinct.component_distinct hc
    refine ⟨hcomponent.articulationPoints_eq_nil_iff.mpr fun u hu => ?_, fun v hv => ?_⟩
    · exact hdistinct.not_isCutVertex_of_pairs hsize hpairs u (hpart.isCutVertex hu)
    · refine (hcomponent.without v).articulationPoints_eq_nil_iff.mpr fun u hu => ?_
      -- with `v`, such a node would be a pair of the whole
      have none := articulationPairs_eq_nil_iff.mp hpairs v (hpart.ids v hv)
      exact (hdistinct.without v).articulationPoints_eq_nil_iff.mp none u
        ((hpart.without v).isCutVertex hu)
  · exact hdistinct.articulationPoints_eq_nil_iff.mpr
      (hdistinct.not_isCutVertex_of_pairs hsize hpairs)

/-- With three nodes there may be a cut vertex and no pair. -/
example : tangledPath.articulationPairs = [] ∧ tangledPath.articulationPoints = ["b"] := by
  constructor <;> cbv

/-- Two triangles, one split, and two triangles that nothing splits. -/
theorem decomposeWithin_indivisible_crossedSquare :
    crossedSquare.decomposeWithin 8 = .ok ⟨crossedSquareSplit, 1⟩ ∧ 4 ≤ crossedSquareSplit.size ∧
      crossedSquareSplit.Distinct ∧ (∀ c ∈ crossedSquareSplit.components,
        c.articulationPoints = [] ∧ ∀ v ∈ c.ids, (c.without v).articulationPoints = []) ∧
      crossedSquareSplit.articulationPairs = [] ∧ crossedSquareSplit.articulationPoints = [] := by
  have finished : crossedSquare.decomposeWithin 8 = .ok ⟨crossedSquareSplit, 1⟩ := by cbv
  have four : 4 ≤ crossedSquareSplit.size := by decide
  have distinct : crossedSquareSplit.Distinct := by decide
  have pairs := articulationPairs_of_decomposeWithin finished
  exact ⟨finished, four, distinct, decomposeWithin_indivisible.1 _ 8 _ finished four distinct,
    pairs, decomposeWithin_indivisible.2 _ four distinct pairs⟩

end Graph

end Drafting
