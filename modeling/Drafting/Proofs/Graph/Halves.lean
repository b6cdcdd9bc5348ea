import Drafting.Proofs.Graph.Cut

namespace Drafting

/-!
# The first cut of a pair

To split at a pair is to cut twice.  The first cut is made at the second node `q`, in the graph
without the first node `p`; its pieces are the halves.  Then `p` and its edges are put back, as
they were, and the second cut takes them out again, so that it starts from the halves:

* `Graph.Pivots` — what is known of a pair and its graph;
* `Graph.Pivots.splitAtPair_eq` — the two cuts;
* `Graph.Pivots.rejoined_without` — what the second cut takes apart are the halves.
-/

namespace Graph

variable {g : Graph} {p q : Node} {u : String}

/-- The pieces of the first cut. -/
def halves (g : Graph) (p q : Node) : List Piece := (g.without p.id).pieces q none

/-- The halves, and the first node with its edges. -/
def rejoined (g : Graph) (p q : Node) : Graph :=
  (ofPieces (g.halves p q)).append ⟨[p], g.edgesAt p.id⟩

/-- The link of the second cut. -/
def pairLink (g : Graph) (p q : Node) : PairLink :=
  ⟨q.id, (g.halves p q).filterMap Piece.clone, g.linkKind p.id q.id⟩

theorem ids_append (g h : Graph) : (g.append h).ids = g.ids ++ h.ids := by
  simp [ids, append]

/-- A node that is put back and taken out again leaves no trace. -/
theorem append_without {h : Graph} (hp : p.id ∉ h.ids) (hclosed : h.Closed) :
    (h.append ⟨[p], g.edgesAt p.id⟩).without p.id = h := by
  have nodes_eq : (h.nodes ++ [p]).filter (·.id != p.id) = h.nodes := by
    rw [List.filter_append, List.filter_eq_self.mpr, List.filter_eq_nil_iff.mpr, List.append_nil]
    · intro n hn
      simp [List.mem_singleton.mp hn]
    · intro n hn
      exact bne_iff_ne.mpr fun heq => hp (heq ▸ List.mem_map_of_mem hn)
  -- all the edges put back touch the node, and no others do
  have edges_eq : (h.edges ++ g.edgesAt p.id).filter (!·.touches p.id) = h.edges := by
    rw [List.filter_append, List.filter_eq_self.mpr, List.filter_eq_nil_iff.mpr, List.append_nil]
    · intro e he
      simp [(List.mem_filter.mp he).2]
    · intro e he
      obtain ⟨hsource, htarget⟩ := hclosed e he
      rw [Bool.not_eq_true', ← Bool.not_eq_true, Edge.touches_iff]
      rintro (heq | heq)
      · exact hp (heq ▸ hsource)
      · exact hp (heq ▸ htarget)
  rw [append, without, nodes_eq, edges_eq]

/-- A node is found by its name. -/
theorem Distinct.getNode_eq (hg : g.Distinct) (hp : p ∈ g.nodes) : g.getNode p.id = .ok p := by
  unfold getNode node?
  cases hfind : g.nodes.find? (·.id == p.id) with
  | none =>
    have := List.find?_eq_none.mp hfind p hp
    simp at this
  | some n =>
    have hid : n.id = p.id := by simpa using List.find?_some hfind
    rw [hg.node_eq (List.mem_of_find?_eq_some hfind) hp hid]

/-- The names in the halves: the other nodes, and clones of the second node. -/
theorem of_mem_ids_halves (hu : u ∈ (ofPieces (g.halves p q)).ids) :
    u ∈ ((g.without p.id).without q.id).ids ∨ ∃ i, u = (q.clone i).id := by
  rw [ofPieces_eq] at hu
  obtain ⟨half, hhalf, hu⟩ := mem_ids_sideBySide.mp hu
  obtain ⟨i, c, hi, rfl⟩ := mem_map_pieces.mp hhalf
  have hc := List.mem_of_getElem? hi
  rw [piece_ids (pivot_not_mem_component hc), mem_ids_attached] at hu
  rcases hu with hu | ⟨-, rfl⟩
  · exact Or.inl (ids_subset_of_component hc hu)
  · exact Or.inr ⟨i, rfl⟩

theorem ids_rejoined (g : Graph) (p q : Node) :
    (g.rejoined p q).ids = (ofPieces (g.halves p q)).ids ++ [p.id] :=
  ids_append _ _

/-- Two nodes of a graph whose names are distinct and apart. -/
structure Pivots (g : Graph) (p q : Node) : Prop where
  distinct : g.Distinct
  apart : g.NamesApart
  first_mem : p ∈ g.nodes
  second_mem : q ∈ g.nodes
  ne : p.id ≠ q.id

namespace Pivots

variable (h : g.Pivots p q)
include h

theorem first_mem_ids : p.id ∈ g.ids := List.mem_map_of_mem h.first_mem

theorem second_mem_ids : q.id ∈ g.ids := List.mem_map_of_mem h.second_mem

theorem second_mem_rest : q ∈ (g.without p.id).nodes :=
  List.mem_filter.mpr ⟨h.second_mem, bne_iff_ne.mpr h.ne.symm⟩

theorem first_clone_not_mem (k : Nat) : (p.clone k).id ∉ g.ids :=
  h.apart.cloneId_not_mem h.first_mem_ids k

theorem second_clone_not_mem (i : Nat) : (q.clone i).id ∉ g.ids :=
  h.apart.cloneId_not_mem h.second_mem_ids i

theorem clone_ne (k i : Nat) : (p.clone k).id ≠ (q.clone i).id :=
  fun heq => h.ne (cloneId_inj.mp heq).1

theorem halves_parts : Parts ((g.halves p q).map Piece.graph) :=
  pieces_parts (h.distinct.without p.id) fun i hmem =>
    h.second_clone_not_mem i (mem_ids_without.mp hmem).1

theorem halves_distinct : (ofPieces (g.halves p q)).Distinct := by
  rw [ofPieces_eq]
  exact h.halves_parts.distinct

theorem halves_closed : (ofPieces (g.halves p q)).Closed := by
  rw [ofPieces_eq]
  exact h.halves_parts.closed_sideBySide

/-- The first node is not in the halves. -/
theorem first_not_mem_halves : p.id ∉ (ofPieces (g.halves p q)).ids := by
  intro hp
  rcases of_mem_ids_halves hp with hp | ⟨i, hi⟩
  · exact (mem_ids_without.mp (mem_ids_without.mp hp).1).2 rfl
  · exact h.second_clone_not_mem i (hi ▸ h.first_mem_ids)

/-- Nor is a clone of it. -/
theorem first_clone_not_mem_halves (k : Nat) : (p.clone k).id ∉ (ofPieces (g.halves p q)).ids := by
  intro hp
  rcases of_mem_ids_halves hp with hp | ⟨i, hi⟩
  · exact h.first_clone_not_mem k (mem_ids_without.mp (mem_ids_without.mp hp).1).1
  · exact h.clone_ne k i hi

/-- **Between the cuts.**  The second cut starts from the halves. -/
theorem rejoined_without : (g.rejoined p q).without p.id = ofPieces (g.halves p q) :=
  append_without h.first_not_mem_halves h.halves_closed

/-- Names still differ when the first node is back. -/
theorem rejoined_distinct : (g.rejoined p q).Distinct := by
  rw [Distinct, ids_rejoined, List.nodup_append]
  refine ⟨h.halves_distinct, List.nodup_singleton _, ?_⟩
  rintro u hu v hv rfl
  rw [List.mem_singleton] at hv
  exact h.first_not_mem_halves (hv ▸ hu)

theorem first_clone_not_mem_rejoined (k : Nat) : (p.clone k).id ∉ (g.rejoined p q).ids := by
  rw [ids_rejoined, List.mem_append, List.mem_singleton, not_or]
  exact ⟨h.first_clone_not_mem_halves k, cloneId_ne p.id k⟩

theorem pieces_rejoined_parts : Parts
    (((g.rejoined p q).pieces p (some (g.pairLink p q))).map Piece.graph) :=
  pieces_parts h.rejoined_distinct h.first_clone_not_mem_rejoined

/-- **The two cuts.** -/
theorem splitAtPair_eq : g.splitAtPair p.id q.id
    = .ok (ofPieces ((g.rejoined p q).pieces p (some (g.pairLink p q)))) := by
  -- all three nodes that the cuts look up are there
  have first : g.getNode p.id = .ok p := h.distinct.getNode_eq h.first_mem
  have second : (g.without p.id).getNode q.id = .ok q :=
    (h.distinct.without p.id).getNode_eq h.second_mem_rest
  have again : (g.rejoined p q).getNode p.id = .ok p :=
    h.rejoined_distinct.getNode_eq (List.mem_append_right _ (List.mem_singleton_self p))
  unfold splitAtPair
  rw [first]
  dsimp only [bind, Except.bind]
  rw [second]
  dsimp only [pure, Except.pure]
  rw [rejoined, halves] at again
  rw [again]
  rfl

end Pivots

end Graph

end Drafting
