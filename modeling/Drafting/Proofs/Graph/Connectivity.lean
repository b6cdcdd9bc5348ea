import Drafting.Proofs.LowLink.Search

namespace Drafting

open Relation

/-!
# Connected nodes and cut vertices of a graph

The search works on places; what it is about are names.  This file says when two nodes of a graph
are connected and what a cut vertex is, and carries the result of the search over:

* `Graph.Joined`, `Graph.Connected` — an edge, or a path of edges, between two known nodes;
* `Graph.IsCutVertex` — two other nodes are connected, but not without the node;
* `Graph.Distinct.adj_iff` — in a graph whose names are distinct, places are adjacent iff their
  nodes are joined, whatever other edges there are;
* `Graph.Distinct.mem_articulationPoints` — the articulation points are the cut vertices.
-/

/-- The two ends of an edge may be exchanged. -/
theorem Edge.connects_comm (e : Edge) (a b : String) : e.connects a b = e.connects b a := by
  rw [Edge.connects, Edge.connects, Bool.or_comm]

theorem Edge.connects_iff {e : Edge} {a b : String} :
    e.connects a b = true ↔ (e.source = a ∧ e.target = b) ∨ (e.source = b ∧ e.target = a) := by
  simp [Edge.connects]

theorem Edge.touches_iff {e : Edge} {a : String} :
    e.touches a = true ↔ e.source = a ∨ e.target = a := by
  simp [Edge.touches]

namespace Graph

variable {g : Graph} {u v w : String}

/-- The names of the nodes. -/
def ids (g : Graph) : List String := g.nodes.map Node.id

/-- No two nodes have the same name. -/
def Distinct (g : Graph) : Prop := g.ids.Nodup

instance (g : Graph) : Decidable g.Distinct := inferInstanceAs (Decidable g.ids.Nodup)

/-- An edge joins two nodes that are both there. -/
def Joined (g : Graph) (u v : String) : Prop :=
  u ∈ g.ids ∧ v ∈ g.ids ∧ ∃ e ∈ g.edges, e.connects u v = true

instance (g : Graph) (u v : String) : Decidable (g.Joined u v) :=
  inferInstanceAs (Decidable (u ∈ g.ids ∧ v ∈ g.ids ∧ ∃ e ∈ g.edges, e.connects u v = true))

/-- A path of edges leads from one node to another. -/
def Connected (g : Graph) (u v : String) : Prop := ReflTransGen g.Joined u v

/-- Two other nodes are connected, but not without `v`. -/
def IsCutVertex (g : Graph) (v : String) : Prop :=
  v ∈ g.ids ∧ ∃ u ∈ g.ids, ∃ w ∈ g.ids, u ≠ v ∧ w ≠ v ∧
    g.Connected u w ∧ ¬ (g.without v).Connected u w

instance : Std.Symm g.Joined where
  symm := by
    rintro u v ⟨hu, hv, e, he, hc⟩
    exact ⟨hv, hu, e, he, e.connects_comm u v ▸ hc⟩

theorem Connected.symm (h : g.Connected u v) : g.Connected v u :=
  (ReflTransGen.stdSymm (r := g.Joined)).symm u v h

theorem Connected.trans (huv : g.Connected u v) (hvw : g.Connected v w) : g.Connected u w :=
  ReflTransGen.trans huv hvw

/-- Nothing but known nodes is connected to a known node. -/
theorem Connected.mem_ids (h : g.Connected u v) (hu : u ∈ g.ids) : v ∈ g.ids :=
  mem_of_path (S := fun x => x ∈ g.ids) (fun _ _ _ step => step.2.1) h hu

/-- More nodes and edges connect more. -/
theorem Connected.mono {h : Graph} (hids : ∀ x ∈ g.ids, x ∈ h.ids)
    (hedges : ∀ e ∈ g.edges, e ∈ h.edges) (path : g.Connected u v) : h.Connected u v := by
  refine ReflTransGen.mono ?_ _ _ path
  rintro x y ⟨hx, hy, e, he, hc⟩
  exact ⟨hids x hx, hids y hy, e, hedges e he, hc⟩

/-! ### Without a node -/

/-- The names that are left when a node is taken out. -/
theorem mem_ids_without : u ∈ (g.without v).ids ↔ u ∈ g.ids ∧ u ≠ v := by
  simp only [ids, without, List.mem_map, List.mem_filter, bne_iff_ne]
  constructor
  · rintro ⟨node, ⟨hnode, hne⟩, rfl⟩
    exact ⟨⟨node, hnode, rfl⟩, hne⟩
  · rintro ⟨⟨node, hnode, rfl⟩, hne⟩
    exact ⟨node, ⟨hnode, hne⟩, rfl⟩

theorem mem_edges_without {e : Edge} :
    e ∈ (g.without v).edges ↔ e ∈ g.edges ∧ e.source ≠ v ∧ e.target ≠ v := by
  simp only [without, List.mem_filter, Bool.not_eq_true', ← Bool.not_eq_true, Edge.touches_iff,
    not_or]

theorem Distinct.without (h : g.Distinct) (v : String) : (g.without v).Distinct := by
  unfold Distinct ids Graph.without at *
  exact h.sublist (List.filter_sublist.map Node.id)

/-- Without `v` there are the edges that do not touch `v`. -/
theorem joined_without (g : Graph) (v : String) : (g.without v).Joined = Avoiding g.Joined v := by
  funext x y
  simp only [Joined, Avoiding, mem_ids_without, mem_edges_without, eq_iff_iff]
  constructor
  · rintro ⟨⟨hx, hxv⟩, ⟨hy, hyv⟩, e, ⟨he, -⟩, hc⟩
    exact ⟨⟨hx, hy, e, he, hc⟩, hxv, hyv⟩
  · rintro ⟨⟨hx, hy, e, he, hc⟩, hxv, hyv⟩
    refine ⟨⟨hx, hxv⟩, ⟨hy, hyv⟩, e, ⟨he, ?_⟩, hc⟩
    rcases Edge.connects_iff.mp hc with ⟨rfl, rfl⟩ | ⟨rfl, rfl⟩
    · exact ⟨hxv, hyv⟩
    · exact ⟨hyv, hxv⟩

theorem connected_without_iff :
    (g.without v).Connected u w ↔ ReflTransGen (Avoiding g.Joined v) u w := by
  rw [Connected, joined_without]

theorem Connected.of_without (h : (g.without v).Connected u w) : g.Connected u w :=
  path_of_avoiding (connected_without_iff.mp h)

/-- Cut vertices are the nodes that separate others. -/
theorem isCutVertex_iff : g.IsCutVertex v ↔ Separates g.Joined v := by
  constructor
  · rintro ⟨-, u, -, w, -, hu, hw, path, hnot⟩
    exact ⟨u, w, hu, hw, path, fun h => hnot (connected_without_iff.mpr h)⟩
  · intro hsep
    -- an unknown name has no neighbours to separate
    have hv : v ∈ g.ids := by
      by_contra hv
      exact not_separates (fun x y hx _ _ _ => absurd hx.2.1 hv) hsep
    obtain ⟨u, w, hu, hw, path, hnot⟩ := hsep
    -- a path that is not trivial starts at a known node
    have hu' : u ∈ g.ids := by
      rcases path.cases_head with rfl | ⟨x, step, -⟩
      · exact absurd .refl hnot
      · exact step.1
    exact ⟨hv, u, hu', w, Connected.mem_ids path hu', hu, hw, path,
      fun h => hnot (connected_without_iff.mp h)⟩

/-- Which nodes are cut vertices depends on what nodes and edges there are, not on their order. -/
theorem IsCutVertex.mono {h : Graph} (hids : ∀ x, x ∈ g.ids ↔ x ∈ h.ids)
    (hedges : ∀ e, e ∈ g.edges ↔ e ∈ h.edges) (hv : g.IsCutVertex v) : h.IsCutVertex v := by
  obtain ⟨hv, u, hu, w, hw, huv, hwv, path, hnot⟩ := hv
  refine ⟨(hids v).mp hv, u, (hids u).mp hu, w, (hids w).mp hw, huv, hwv,
    path.mono (fun x hx => (hids x).mp hx) fun e he => (hedges e).mp he, fun path' => hnot ?_⟩
  refine path'.mono (fun x hx => ?_) fun e he => ?_
  · rw [mem_ids_without, ← hids, ← mem_ids_without] at hx
    exact hx
  · rw [mem_edges_without, ← hedges, ← mem_edges_without] at he
    exact he

/-! ### Places and names -/

/-- The name of the node at a place. -/
def idAt (g : Graph) (i : Fin g.size) : String := (g.nodeAt i).id

theorem idAt_mem (i : Fin g.size) : g.idAt i ∈ g.ids :=
  List.mem_map_of_mem (List.get_mem _ _)

theorem exists_idAt (h : u ∈ g.ids) : ∃ i, g.idAt i = u := by
  obtain ⟨node, hnode, rfl⟩ := List.mem_map.mp h
  obtain ⟨i, rfl⟩ := List.get_of_mem hnode
  exact ⟨i, rfl⟩

/-- Where names differ, places have different names. -/
theorem Distinct.idAt_injective (h : g.Distinct) : Function.Injective g.idAt := by
  intro i j heq
  have hi : (i : Nat) < g.ids.length := by
    rw [ids, List.length_map]
    exact i.isLt
  have hj : (j : Nat) < g.ids.length := by
    rw [ids, List.length_map]
    exact j.isLt
  have same : g.ids[(i : Nat)] = g.ids[(j : Nat)] := by
    simp only [ids, List.getElem_map]
    exact heq
  exact Fin.ext (h.getElem_inj_iff.mp same)

/-- A name is found at its only place. -/
theorem Distinct.index?_eq_some (h : g.Distinct) {i : Fin g.size} :
    g.index? u = some i ↔ g.idAt i = u := by
  refine Iff.trans (@List.findFinIdx?_eq_some_iff _ g.nodes (·.id == u) i) ?_
  simp only [beq_iff_eq]
  constructor
  · exact fun hfound => hfound.1
  · rintro rfl
    refine ⟨rfl, fun j hj heq => ?_⟩
    have : j = i := h.idAt_injective heq
    exact absurd this (ne_of_lt hj)

/-- Where names differ, the ends of an edge are the places with its two names. -/
theorem Distinct.ends?_eq_some (h : g.Distinct) {e : Edge} {s t : Fin g.size} :
    g.ends? e = some (s, t) ↔ g.idAt s = e.source ∧ g.idAt t = e.target := by
  rw [← h.index?_eq_some, ← h.index?_eq_some, ends?]
  split
  · next s' t' hs ht => simp [hs, ht]
  · next hnone =>
    simp only [reduceCtorEq, false_iff]
    rintro ⟨hs, ht⟩
    exact hnone s t hs ht

end Graph

/-- A place is next to another one iff there is a joint between the two. -/
theorem Adjacency.adj_ofJoints {n : Nat} {joints : List (Fin n × Fin n)} {i j : Fin n} :
    (Adjacency.ofJoints joints).Adj i j ↔ (i, j) ∈ joints ∨ (j, i) ∈ joints := by
  unfold Adjacency.Adj Adjacency.ofJoints
  rw [get_ofFn, List.mem_filterMap]
  constructor
  · rintro ⟨⟨a, b⟩, hmem, hother⟩
    unfold Adjacency.otherEnd? at hother
    dsimp only at hother
    split at hother
    · next ha =>
      rw [← ha, ← Option.some.inj hother]
      exact Or.inl hmem
    · split at hother
      · next hb =>
        rw [← hb, ← Option.some.inj hother]
        exact Or.inr hmem
      · cases hother
  · rintro (hmem | hmem)
    · exact ⟨(i, j), hmem, by simp [Adjacency.otherEnd?]⟩
    · refine ⟨(j, i), hmem, ?_⟩
      -- a joint of a place with itself has the place as its other end
      by_cases hij : j = i <;> simp [Adjacency.otherEnd?, hij]

theorem Graph.adjacency_isSymmetric (g : Graph) : g.adjacency.IsSymmetric :=
  fun _ _ h => Adjacency.adj_ofJoints.mpr (Adjacency.adj_ofJoints.mp h).symm

namespace Graph

variable {g : Graph} {u v w : String}

/-- Places are adjacent iff their nodes are joined. -/
theorem Distinct.adj_iff (h : g.Distinct) (i j : Fin g.size) :
    g.Joined (g.idAt i) (g.idAt j) ↔ g.adjacency.Adj i j := by
  rw [adjacency, Adjacency.adj_ofJoints]
  simp only [List.mem_filterMap, h.ends?_eq_some, Joined, idAt_mem, true_and, Edge.connects_iff]
  rw [← exists_or]
  apply exists_congr
  intro e
  rw [← and_or_left]
  apply and_congr_right
  intro _
  constructor
  · rintro (⟨hs, ht⟩ | ⟨hs, ht⟩)
    · exact Or.inl ⟨hs.symm, ht.symm⟩
    · exact Or.inr ⟨hs.symm, ht.symm⟩
  · rintro (⟨hs, ht⟩ | ⟨hs, ht⟩)
    · exact Or.inl ⟨hs.symm, ht.symm⟩
    · exact Or.inr ⟨hs.symm, ht.symm⟩

theorem exists_idAt_of_joined (i : Fin g.size) (u : String) (h : g.Joined (g.idAt i) u) :
    ∃ j, g.idAt j = u := exists_idAt h.2.1

/-- Places are connected iff their nodes are. -/
theorem Distinct.connected_idAt (h : g.Distinct) {i j : Fin g.size} :
    g.Connected (g.idAt i) (g.idAt j) ↔ ReflTransGen g.adjacency.Adj i j :=
  path_map_iff h.idAt_injective h.adj_iff exists_idAt_of_joined

/-- **The articulation points are the cut vertices.** -/
theorem Distinct.mem_articulationPoints (h : g.Distinct) :
    v ∈ g.articulationPoints ↔ g.IsCutVertex v := by
  have separates_idAt : ∀ i, Separates g.Joined (g.idAt i) ↔ Separates g.adjacency.Adj i := by
    intro i
    refine separates_map_iff h.idAt_injective h.adj_iff exists_idAt_of_joined fun b hb c hbc => ?_
    -- no edge leads out of an unknown name
    obtain ⟨j, hj⟩ := exists_idAt hbc.1
    exact hb j hj
  rw [articulationPoints, List.mem_map]
  constructor
  · rintro ⟨i, hi, rfl⟩
    rw [Adjacency.mem_cutVertices g.adjacency_isSymmetric, ← separates_idAt] at hi
    exact isCutVertex_iff.mpr hi
  · intro hv
    obtain ⟨i, rfl⟩ := exists_idAt hv.1
    refine ⟨i, ?_, rfl⟩
    rw [Adjacency.mem_cutVertices g.adjacency_isSymmetric, ← separates_idAt]
    exact isCutVertex_iff.mp hv

theorem Distinct.hasArticulationPoint_iff (h : g.Distinct) :
    g.hasArticulationPoint = true ↔ ∃ v, g.IsCutVertex v := by
  rw [hasArticulationPoint, Bool.not_eq_true', List.isEmpty_eq_false_iff_exists_mem]
  exact exists_congr fun v => h.mem_articulationPoints

/-- **Articulation points.**  The search lists every cut vertex once, and nothing else. -/
theorem articulationPoints_exact (g : Graph) (h : g.Distinct) :
    g.articulationPoints.Nodup ∧
      ∀ v, v ∈ g.articulationPoints ↔
        v ∈ g.ids ∧ ∃ u ∈ g.ids, ∃ w ∈ g.ids, u ≠ v ∧ w ≠ v ∧
          g.Connected u w ∧ ¬ (g.without v).Connected u w := by
  refine ⟨?_, fun v => h.mem_articulationPoints⟩
  exact (Adjacency.nodup_cutVertices g.adjacency_isSymmetric).map h.idAt_injective

/-- A path from `a` to `c` with a parallel edge, a loop, and an edge to an unknown node. -/
def tangledPath : Graph where
  nodes := [⟨"a", .point⟩, ⟨"b", .line⟩, ⟨"c", .point⟩]
  edges := [⟨"ab", .distance, "a", "b"⟩, ⟨"ba", .angle, "b", "a"⟩, ⟨"bc", .distance, "b", "c"⟩,
    ⟨"cc", .connection, "c", "c"⟩, ⟨"cx", .distance, "c", "x"⟩]

/-- On a path with more edges than it needs, only the node in the middle is one. -/
theorem articulationPoints_tangledPath :
    tangledPath.Distinct ∧ tangledPath.articulationPoints.Nodup ∧
      ∀ v, v ∈ tangledPath.articulationPoints ↔
        v ∈ tangledPath.ids ∧ ∃ u ∈ tangledPath.ids, ∃ w ∈ tangledPath.ids, u ≠ v ∧ w ≠ v ∧
          tangledPath.Connected u w ∧ ¬ (tangledPath.without v).Connected u w :=
  ⟨by decide, articulationPoints_exact tangledPath (by decide)⟩

end Graph

end Drafting
