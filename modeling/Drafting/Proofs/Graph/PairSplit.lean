import Mathlib
import Drafting.Proofs.Graph.Halfway

namespace Drafting

open Relation

/-!
# The split at a pair of nodes

What the two cuts come to.

* `Graph.SplitComponent` — what becomes of one component;
* `Graph.PairSplit` — a graph that is split at a pair;
* `Graph.Pivots.splitAtPair_spec` — the two cuts split the graph at the pair.
-/

namespace Graph

open Classical in
/-- The link between the two clones: there is one if the component has both of them and a cut
    vertex. -/
noncomputable def pairLinks (g : Graph) (p q : Node) (x y : Option Nat) (r : Graph) : List Edge :=
  match x, y with
  | some k, some i =>
    if ∃ v, r.IsCutVertex v then
      [⟨linkId q.id k, g.linkKind p.id q.id, (p.clone k).id, (q.clone i).id⟩]
    else []
  | _, _ => []

/-- What becomes of the component `s` in a graph `h` that is `g` split at a pair: with its clones it
    is a component, and it has the nodes and edges it should have. -/
structure SplitComponent (g : Graph) (p q : Node) (s reach : Finset String) (x y : Option Nat)
    (h : Graph) : Prop where
  component : h.IsComponent (withClone (withClone s q y) p x)
  first_iff : x.isSome ↔ ∃ e ∈ g.edges, e.Attaches p.id reach
  second_iff : y.isSome ↔ ∃ e ∈ g.edges, e.Attaches q.id s
  nodes : (h.restrict (withClone (withClone s q y) p x)).nodes.Perm
    (g.reattached p q s reach x y).nodes
  edges : (h.restrict (withClone (withClone s q y) p x)).edges.Perm
    ((g.reattached p q s reach x y).edges ++ g.pairLinks p q x y (g.reattached p q s reach x y))

/-- The graph `h` is `g` split at the pair of `p` and `q`.  Each component of `h` is a component of
    `g` without the pair, with its clones, and the other way round. -/
structure PairSplit (g : Graph) (p q : Node) (reach : Finset String → Option Nat → Finset String)
    (h : Graph) : Prop where
  distinct : h.Distinct
  closed : h.Closed
  component : ∀ s, ((g.without p.id).without q.id).IsComponent s →
    ∃ x y, SplitComponent g p q s (reach s y) x y h
  of_component : ∀ t, h.IsComponent t →
    ∃ s x y, ((g.without p.id).without q.id).IsComponent s ∧
      SplitComponent g p q s (reach s y) x y h ∧ t = withClone (withClone s q y) p x

variable {g c d : Graph} {p q : Node} {i k : Nat} {u : String}

theorem mem_pairLinks {x y : Option Nat} {r : Graph} {l : Edge} : l ∈ g.pairLinks p q x y r ↔
    ∃ k i, x = some k ∧ y = some i ∧ (∃ v, r.IsCutVertex v) ∧
      l = ⟨linkId q.id k, g.linkKind p.id q.id, (p.clone k).id, (q.clone i).id⟩ := by
  cases x <;> cases y <;> simp [pairLinks]

/-- Lists with the same edges to some names agree on whether there are any. -/
theorem exists_congr_of_filter_eq {l l' : List Edge} {s : Finset String} {n : String}
    (heq : l.filter (·.Attaches n s) = l'.filter (·.Attaches n s)) :
    (∃ e ∈ l, e.Attaches n s) ↔ ∃ e ∈ l', e.Attaches n s := by
  apply exists_congr
  intro e
  have hmem := congrArg (fun filtered => e ∈ filtered) heq
  simpa only [List.mem_filter, decide_eq_true_eq, eq_iff_iff] using hmem

/-! ### The link of a piece -/

/-- The clones that a link may lead to. -/
theorem mem_clones : u ∈ (g.pairLink p q).clones ↔
    ∃ i c, ((g.without p.id).without q.id).components[i]? = some c ∧
      secondNumber g p q c i = some i ∧ u = (q.clone i).id := by
  rw [pairLink, List.mem_filterMap]
  constructor
  · rintro ⟨piece, hpiece, hclone⟩
    obtain ⟨i, c, hc, rfl⟩ := mem_pieces.mp hpiece
    rw [piece_eq (pivot_not_mem_component (List.mem_of_getElem? hc))] at hclone
    obtain ⟨j, hj, rfl⟩ := Option.map_eq_some_iff.mp hclone
    obtain rfl := eq_of_mem_cloneNumber hj
    exact ⟨j, c, hc, hj, rfl⟩
  · rintro ⟨i, c, hc, number, rfl⟩
    refine ⟨_, mem_pieces.mpr ⟨i, c, hc, rfl⟩, ?_⟩
    rw [piece_eq (pivot_not_mem_component (List.mem_of_getElem? hc))]
    exact Option.map_eq_some_iff.mpr ⟨i, number, rfl⟩

namespace Halfway

variable (h : g.Pivots p q) (m : Halfway g p q i c k d)
include h m

theorem piece_mem : (piece (g.rejoined p q).edges p (some (g.pairLink p q)) d k).graph
    ∈ ((g.rejoined p q).pieces p (some (g.pairLink p q))).map Piece.graph := by
  rw [mem_map_pieces, h.rejoined_without]
  exact ⟨k, d, m.after, rfl⟩

theorem piece_ids_eq : (piece (g.rejoined p q).edges p (some (g.pairLink p q)) d k).graph.ids
    = (attached (g.rejoined p q).edges p d k).ids :=
  piece_ids fun hp => m.first_not_mem_after h (mem_idSet.mpr hp)

theorem attached_distinct : (attached (g.rejoined p q).edges p d k).Distinct := by
  rw [Distinct, ← m.piece_ids_eq h]
  exact h.pieces_rejoined_parts.part_distinct (m.piece_mem h)

/-- The only clone of the second node in a piece is its own. -/
theorem eq_of_mem_clones {n : Node} (hn : n ∈ (attached (g.rejoined p q).edges p d k).nodes)
    (hclone : n.id ∈ (g.pairLink p q).clones) :
    secondNumber g p q c i = some i ∧ n.id = (q.clone i).id := by
  obtain ⟨j, -, -, -, hid⟩ := mem_clones.mp hclone
  have hmem : n.id ∈ (attached (g.rejoined p q).edges p d k).ids := List.mem_map_of_mem hn
  rcases mem_ids_attached.mp hmem with hmem | ⟨-, heq⟩
  · rw [← mem_idSet, m.idSet_eq, mem_withClone] at hmem
    rcases hmem with hmem | ⟨i', number, heq⟩
    · -- a member of the component has an old name
      have := ids_subset_of_component m.component_mem (mem_idSet.mp hmem)
      have := (mem_ids_without.mp (mem_ids_without.mp this).1).1
      exact absurd (hid ▸ this) (h.second_clone_not_mem j)
    · obtain rfl := eq_of_mem_cloneNumber number
      exact ⟨number, heq.symm⟩
  · -- the clone of the first node has another original
    exact absurd (heq.symm.trans hid) (h.clone_ne k j)

/-- The piece has a cut vertex iff the component has one, with its clones and edges. -/
theorem hasArticulationPoint_iff (number : firstNumber g p q d k = some k) :
    (attached (g.rejoined p q).edges p d k).hasArticulationPoint = true ↔
      ∃ v, (g.reattached p q c.idSet d.idSet (some k) (secondNumber g p q c i)).IsCutVertex v := by
  have nodes := m.attached_nodes h.distinct
  have edges := m.attached_edges h
  rw [number] at nodes edges
  have ids := nodes.map Node.id
  rw [(m.attached_distinct h).hasArticulationPoint_iff]
  refine exists_congr fun v => ⟨IsCutVertex.mono ?_ ?_, IsCutVertex.mono ?_ ?_⟩
  · exact fun x => ids.mem_iff
  · exact fun e => edges.mem_iff
  · exact fun x => ids.mem_iff.symm
  · exact fun e => edges.mem_iff.symm

/-- **The link of a piece.** -/
theorem links_eq (number : firstNumber g p q d k = some k) :
    (attached (g.rejoined p q).edges p d k).links (p.clone k).id k (g.pairLink p q)
      = g.pairLinks p q (some k) (secondNumber g p q c i)
        (g.reattached p q c.idSet d.idSet (some k) (secondNumber g p q c i)) := by
  have cut_iff := m.hasArticulationPoint_iff h number
  unfold links pairLinks
  cases hsecond : secondNumber g p q c i with
  | none =>
    -- no clone of the second node, and so no node that a link could lead to
    have none_found : (attached (g.rejoined p q).edges p d k).nodes.find?
        (fun node => (g.pairLink p q).clones.contains node.id) = none := by
      apply List.find?_eq_none.mpr
      intro n hn hclone
      have := (m.eq_of_mem_clones h hn (List.contains_iff_mem.mp hclone)).1
      rw [hsecond] at this
      cases this
    rw [none_found]
    exact ite_self _
  | some j =>
    rw [hsecond] at cut_iff
    obtain rfl : j = i := eq_of_mem_cloneNumber hsecond
    have clone_mem : q.clone j ∈ (attached (g.rejoined p q).edges p d k).nodes := by
      refine List.mem_append_left _ (m.nodes.mem_iff.mpr (List.mem_append_right _ ?_))
      rw [Option.mem_toList, Option.map_eq_some_iff]
      exact ⟨j, hsecond, rfl⟩
    have found : (g.pairLink p q).clones.contains (q.clone j).id = true :=
      List.contains_iff_mem.mpr (mem_clones.mpr ⟨j, c, m.before, hsecond, rfl⟩)
    cases hfind : (attached (g.rejoined p q).edges p d k).nodes.find?
        (fun node => (g.pairLink p q).clones.contains node.id) with
    | none => exact absurd found (List.find?_eq_none.mp hfind _ clone_mem)
    | some n =>
      have hclone : (g.pairLink p q).clones.contains n.id = true := by
        simpa only using List.find?_some hfind
      have hid := (m.eq_of_mem_clones h (List.mem_of_find?_eq_some hfind)
        (List.contains_iff_mem.mp hclone)).2
      dsimp only
      rw [hid]
      by_cases hcut : (attached (g.rejoined p q).edges p d k).hasArticulationPoint = true
      · rw [if_pos hcut, if_pos (cut_iff.mp hcut)]
        rfl
      · rw [if_neg hcut, if_neg fun hex => hcut (cut_iff.mpr hex)]

/-! ### All pieces -/

/-- The names in a piece. -/
theorem piece_idSet : (piece (g.rejoined p q).edges p (some (g.pairLink p q)) d k).graph.idSet
    = withClone (withClone c.idSet q (secondNumber g p q c i)) p (firstNumber g p q d k) := by
  rw [← m.idSet_eq, firstNumber, ← idSet_attached, idSet, m.piece_ids_eq h, idSet]

/-- The edges of a piece. -/
theorem piece_edges :
    (piece (g.rejoined p q).edges p (some (g.pairLink p q)) d k).graph.edges.Perm
      ((g.reattached p q c.idSet d.idSet (firstNumber g p q d k) (secondNumber g p q c i)).edges ++
        g.pairLinks p q (firstNumber g p q d k) (secondNumber g p q c i)
          (g.reattached p q c.idSet d.idSet (firstNumber g p q d k) (secondNumber g p q c i))) := by
  rw [piece_eq fun hp => m.first_not_mem_after h (mem_idSet.mpr hp)]
  refine (m.attached_edges h).append (List.Perm.of_eq ?_)
  cases hnumber : firstNumber g p q d k with
  | none =>
    rw [firstNumber] at hnumber
    rw [hnumber]
    rfl
  | some k' =>
    obtain rfl : k' = k := eq_of_mem_cloneNumber hnumber
    rw [← m.links_eq h hnumber]
    rw [firstNumber] at hnumber
    rw [hnumber]
    rfl

/-- What becomes of a component. -/
theorem splitComponent : SplitComponent g p q c.idSet (withClone c.idSet q (secondNumber g p q c i))
    (firstNumber g p q d k) (secondNumber g p q c i)
    (ofPieces ((g.rejoined p q).pieces p (some (g.pairLink p q)))) := by
  have parts := h.pieces_rejoined_parts
  have hmem := m.piece_mem h
  have restrict_eq := parts.restrict_eq hmem
  rw [m.piece_idSet h, ← ofPieces_eq] at restrict_eq
  refine { component := ?_, first_iff := ?_, second_iff := ?_, nodes := ?_, edges := ?_ }
  · rw [← m.piece_idSet h, ofPieces_eq]
    exact parts.isComponent hmem
  · rw [firstNumber, cloneNumber_isSome, ← m.idSet_eq]
    exact exists_congr_of_filter_eq h.filter_first
  · rw [secondNumber, cloneNumber_isSome]
    exact exists_congr_of_filter_eq (h.filter_second m.first_not_mem)
  · rw [restrict_eq, ← m.idSet_eq, piece_eq fun hp => m.first_not_mem_after h (mem_idSet.mpr hp)]
    exact m.attached_nodes h.distinct
  · rw [restrict_eq, ← m.idSet_eq]
    exact m.piece_edges h

end Halfway

/-- **The split at a pair.** -/
theorem Pivots.splitAtPair_spec (h : g.Pivots p q) : ∃ r, g.splitAtPair p.id q.id = .ok r ∧
    PairSplit g p q (fun s y => withClone s q y) r := by
  have parts := h.pieces_rejoined_parts
  refine ⟨_, h.splitAtPair_eq,
    { distinct := ?_, closed := ?_, component := ?_, of_component := ?_ }⟩
  · rw [ofPieces_eq]
    exact parts.distinct
  · rw [ofPieces_eq]
    exact parts.closed_sideBySide
  · intro s hs
    obtain ⟨c, hc, rfl⟩ := ((h.distinct.without p.id).without q.id).isComponent_iff.mp hs
    obtain ⟨i, hi⟩ := List.getElem?_of_mem hc
    obtain ⟨k, d, m⟩ := h.exists_halfway_of_before hi
    exact ⟨_, _, m.splitComponent h⟩
  · intro t ht
    rw [ofPieces_eq] at ht
    obtain ⟨r, hr, rfl⟩ := parts.isComponent_iff.mp ht
    obtain ⟨k, d, hd, rfl⟩ := mem_map_pieces.mp hr
    rw [h.rejoined_without] at hd
    obtain ⟨i, c, m⟩ := h.exists_halfway_of_after hd
    exact ⟨c.idSet, _, _, ((h.distinct.without p.id).without q.id).component_isComponent
      m.component_mem, m.splitComponent h, m.piece_idSet h⟩

/-! ### Without captured edges -/

/-- An edge of the first node that names a clone of the second one is captured by that clone. -/
def Captures (g : Graph) (a b : String) (r : Graph) : Prop :=
  ∃ e ∈ g.edges, ∃ i, cloneId b i ∈ r.ids ∧ e.connects a (cloneId b i) = true

/-- Nothing is captured if all edges lead to known nodes. -/
theorem Pivots.not_captures (h : g.Pivots p q) (hclosed : g.Closed) (r : Graph) :
    ¬ g.Captures p.id q.id r := by
  rintro ⟨e, he, i, -, hconn⟩
  obtain ⟨hsource, htarget⟩ := hclosed e he
  rcases Edge.connects_iff.mp hconn with ⟨-, heq⟩ | ⟨heq, -⟩
  · rw [heq] at htarget
    exact h.second_clone_not_mem i htarget
  · rw [heq] at hsource
    exact h.second_clone_not_mem i hsource

/-- What becomes of a component depends on the reach of the first node only through its edges. -/
theorem reattached_congr {s reach reach' : Finset String}
    (hreach : ∀ e ∈ g.edges, e.Attaches p.id reach ↔ e.Attaches p.id reach') (x y : Option Nat) :
    g.reattached p q s reach x y = g.reattached p q s reach' x y := by
  have same : g.edges.filter (·.BelongsTo p q s reach)
      = g.edges.filter (·.BelongsTo p q s reach') := by
    apply List.filter_congr
    intro e he
    exact decide_eq_decide.mpr (or_congr_right (or_congr_right (hreach e he)))
  rw [reattached, reattached, same]

/-- Then an edge of the first node that leads to a component or its clone leads to the component. -/
theorem attaches_withClone_iff {s : Finset String} {y : Option Nat} {r : Graph}
    (hcaptures : ¬ g.Captures p.id q.id r) (hclone : ∀ i, y = some i → (q.clone i).id ∈ r.ids)
    {e : Edge} (he : e ∈ g.edges) : e.Attaches p.id (withClone s q y) ↔ e.Attaches p.id s := by
  rw [Edge.attaches_iff, Edge.attaches_iff]
  constructor
  · rintro ⟨v, hv, hconn⟩
    rcases mem_withClone.mp hv with hs | ⟨i, rfl, rfl⟩
    · exact ⟨v, hs, hconn⟩
    · -- a clone in reach would capture the edge
      exact absurd ⟨e, he, i, hclone i rfl, hconn⟩ hcaptures
  · rintro ⟨v, hv, hconn⟩
    exact ⟨v, mem_withClone.mpr (Or.inl hv), hconn⟩

/-- Then the edges of the first node lead to the components, and to nothing else. -/
theorem SplitComponent.of_not_captures {s : Finset String} {x y : Option Nat} {r : Graph}
    (hr : SplitComponent g p q s (withClone s q y) x y r) (hcaptures : ¬ g.Captures p.id q.id r) :
    SplitComponent g p q s s x y r := by
  have hclone : ∀ i, y = some i → (q.clone i).id ∈ r.ids := fun i hy => hr.component.mem_ids
    (mem_withClone.mpr (Or.inl (mem_withClone.mpr (Or.inr ⟨i, hy, rfl⟩))))
  have hreach : ∀ e ∈ g.edges, e.Attaches p.id (withClone s q y) ↔ e.Attaches p.id s :=
    fun e he => attaches_withClone_iff hcaptures hclone he
  have same := reattached_congr (q := q) (s := s) hreach x y
  refine { component := hr.component, first_iff := ?_, second_iff := hr.second_iff,
           nodes := ?_, edges := ?_ }
  · rw [hr.first_iff]
    exact exists_congr fun e => and_congr_right fun he => hreach e he
  · rw [← same]
    exact hr.nodes
  · rw [← same]
    exact hr.edges

/-- Where no edge is captured, the first node reaches components and no clones. -/
theorem PairSplit.of_not_captures {r : Graph}
    (hr : PairSplit g p q (fun s y => withClone s q y) r) (hcaptures : ¬ g.Captures p.id q.id r) :
    PairSplit g p q (fun s _ => s) r where
  distinct := hr.distinct
  closed := hr.closed
  component s hs := by
    obtain ⟨x, y, hsplit⟩ := hr.component s hs
    exact ⟨x, y, hsplit.of_not_captures hcaptures⟩
  of_component t ht := by
    obtain ⟨s, x, y, hs, hsplit, heq⟩ := hr.of_component t ht
    exact ⟨s, x, y, hs, hsplit.of_not_captures hcaptures, heq⟩

/-- **Splitting at a pair.**  The components of the result are those of the graph without the pair,
    each with its clones, its edges and its link, where the first node is joined to the members of a
    component and to the component's clone of the second node.  Unless an edge is captured by such a
    clone, this means to the members of the component. -/
theorem splitAtPair_components (g : Graph) (p q : Node) (hg : g.Distinct) (hapart : g.NamesApart)
    (hp : p ∈ g.nodes) (hq : q ∈ g.nodes) (hne : p.id ≠ q.id) :
    ∃ r, g.splitAtPair p.id q.id = .ok r ∧
      PairSplit g p q (fun s y => withClone s q y) r ∧
      (¬ g.Captures p.id q.id r → PairSplit g p q (fun s _ => s) r) := by
  obtain ⟨r, hsplit, hr⟩ := Pivots.splitAtPair_spec ⟨hg, hapart, hp, hq, hne⟩
  exact ⟨r, hsplit, hr, hr.of_not_captures⟩

/-- Two triangles with a common side, from `a` to `c`. -/
def crossedSquare : Graph where
  nodes := [⟨"a", .point⟩, ⟨"b", .point⟩, ⟨"c", .point⟩, ⟨"d", .point⟩]
  edges := [⟨"ab", .distance, "a", "b"⟩, ⟨"bc", .distance, "b", "c"⟩,
    ⟨"cd", .distance, "c", "d"⟩, ⟨"da", .distance, "d", "a"⟩, ⟨"ac", .distance, "a", "c"⟩]

/-- Two triangles, whose edges all lead to known nodes. -/
theorem splitAtPair_crossedSquare :
    crossedSquare.Distinct ∧ crossedSquare.NamesApart ∧
      ∃ r, crossedSquare.splitAtPair "a" "c" = .ok r ∧
        PairSplit crossedSquare ⟨"a", .point⟩ ⟨"c", .point⟩ (fun s _ => s) r := by
  have distinct : crossedSquare.Distinct := by decide
  have apart : crossedSquare.NamesApart := namesApart_of_underscore_not_mem (by decide)
  have closed : crossedSquare.Closed := by unfold Closed; decide
  obtain ⟨r, hsplit, -, plain⟩ := splitAtPair_components crossedSquare ⟨"a", .point⟩ ⟨"c", .point⟩
    distinct apart (by decide) (by decide) (by decide)
  have pivots : crossedSquare.Pivots ⟨"a", .point⟩ ⟨"c", .point⟩ :=
    ⟨distinct, apart, by decide, by decide, by decide⟩
  exact ⟨distinct, apart, r, hsplit, plain (pivots.not_captures closed r)⟩

/-- The two triangles, cut apart at their common side. -/
def crossedSquareSplit : Graph where
  nodes := [⟨"b", .point⟩, ⟨"c_0", .point⟩, ⟨"a_0", .point⟩, ⟨"d", .point⟩, ⟨"c_1", .point⟩,
    ⟨"a_1", .point⟩]
  edges := [⟨"bc", .distance, "b", "c_0"⟩, ⟨"ab", .distance, "a_0", "b"⟩,
    ⟨"c_virtual_edge_0", .distance, "a_0", "c_0"⟩, ⟨"cd", .distance, "c_1", "d"⟩,
    ⟨"da", .distance, "d", "a_1"⟩, ⟨"c_virtual_edge_1", .distance, "a_1", "c_1"⟩]

/-- A graph with an edge from `a` to a name that a clone of `b` is going to have. -/
def strayEdge : Graph where
  nodes := [⟨"a", .point⟩, ⟨"b", .point⟩, ⟨"c", .point⟩]
  edges := [⟨"bc", .distance, "b", "c"⟩, ⟨"stray", .distance, "a", "b_0"⟩]

/-- The clone `b_0` captures the edge, and so there is a clone of `a` and a link. -/
def strayEdgeSplit : Graph where
  nodes := [⟨"c", .point⟩, ⟨"b_0", .point⟩, ⟨"a_0", .point⟩]
  edges := [⟨"bc", .distance, "b_0", "c"⟩, ⟨"stray", .distance, "a_0", "b_0"⟩,
    ⟨"b_virtual_edge_0", .virtual, "a_0", "b_0"⟩]

theorem splitAtPair_strayEdge : strayEdge.splitAtPair "a" "b" = .ok strayEdgeSplit := by cbv

/-- No edge joins `a` to `c`, and still the component of `c` gets a clone of `a`. -/
theorem not_pairSplit_strayEdge :
    strayEdge.Distinct ∧ strayEdge.NamesApart ∧
      ¬ ∃ r, strayEdge.splitAtPair "a" "b" = .ok r ∧
        PairSplit strayEdge ⟨"a", .point⟩ ⟨"b", .point⟩ (fun s _ => s) r := by
  refine ⟨by decide, namesApart_of_underscore_not_mem (by decide), ?_⟩
  rintro ⟨r, hr, hsplit⟩
  rw [splitAtPair_strayEdge] at hr
  obtain rfl := Except.ok.inj hr
  have alone : ((strayEdge.without "a").without "b").IsComponent {"c"} := by
    have no_edges : ((strayEdge.without "a").without "b").edges = [] := by decide
    refine ⟨"c", by decide, fun v => ?_⟩
    rw [Finset.mem_singleton]
    constructor
    · rintro rfl
      exact .refl
    · intro path
      refine mem_of_path (S := fun x => x = "c") ?_ path rfl
      rintro x y - ⟨-, -, e, he, -⟩
      rw [no_edges] at he
      cases he
  obtain ⟨x, y, hc⟩ := hsplit.component {"c"} alone
  have unjoined : ¬ ∃ e ∈ strayEdge.edges, e.Attaches "a" {"c"} := by decide
  have no_clone : x = none :=
    Option.not_isSome_iff_eq_none.mp fun hx => unjoined (hc.first_iff.mp hx)
  subst no_clone
  -- but `a_0` can be reached from `c` by way of `b_0`
  have bc : strayEdgeSplit.Joined "c" "b_0" := ⟨by decide, by decide, by decide⟩
  have stray : strayEdgeSplit.Joined "b_0" "a_0" := ⟨by decide, by decide, by decide⟩
  have start : "c" ∈ withClone (withClone {"c"} ⟨"b", .point⟩ y) ⟨"a", .point⟩ none :=
    mem_withClone.mpr (Or.inl (mem_withClone.mpr (Or.inl (Finset.mem_singleton_self "c"))))
  have reached := (hc.component.mem_iff start).mpr (ReflTransGen.tail (.single bc) stray)
  rcases mem_withClone.mp reached with reached | ⟨k, hk, -⟩
  · rcases mem_withClone.mp reached with reached | ⟨k, -, hk⟩
    · exact absurd reached (by decide)
    · have name : cloneId "a" 0 = "a_0" := by cbv
      exact absurd (cloneId_inj.mp ((show cloneId "b" k = "a_0" from hk).trans name.symm)).1
        (by decide)
  · cases hk

end Graph

end Drafting
