import Drafting.Proofs.Graph.Halves

namespace Drafting

/-!
# A component on its way through the cuts

Let `s` be a component of the graph without the pair.  It keeps its nodes and its edges, it gets a
clone of each of the two nodes that an edge joins to it, and the edges to the pair are moved to the
clones.

There is one thing to be aware of.  The edges of the first node are put back before the second cut
looks for members of a component, and by then the clones of the second node are members.  An edge of
the first node that names such a clone (so that its other end was unknown) is taken for an edge to
it.  What an edge of the first node may lead to is therefore a parameter, `reach`, below.

* `Graph.reattached` — a component with its clones and all its edges, before a link is added;
* `Graph.Halfway` — a component before the first cut, and after it;
* `Graph.Halfway.attached_nodes`, `Graph.Halfway.attached_edges` — the second cut leads to
  `reattached`, up to the order of nodes and edges.
-/

/-- The name of a clone, or of the node itself where there is no clone. -/
def Node.cloneName (n : Node) (x : Option Nat) : String := x.elim n.id fun k => (n.clone k).id

/-- The edge lies in `s`, or leads from `q` to `s`, or from `p` to `reach`. -/
def Edge.BelongsTo (e : Edge) (p q : Node) (s reach : Finset String) : Prop :=
  (e.source ∈ s ∧ e.target ∈ s) ∨ e.Attaches q.id s ∨ e.Attaches p.id reach

instance (e : Edge) (p q : Node) (s reach : Finset String) : Decidable (e.BelongsTo p q s reach) :=
  inferInstanceAs (Decidable (_ ∨ _ ∨ _))

namespace Graph

/-- Some names, and that of the clone of a node if there is one. -/
def withClone (s : Finset String) (n : Node) (x : Option Nat) : Finset String :=
  s ∪ (x.map fun k => (n.clone k).id).toFinset

/-- The names of the clones for those of the pair. -/
def toClones (p q : Node) (x y : Option Nat) : String → String :=
  Function.update (Function.update id q.id (q.cloneName y)) p.id (p.cloneName x)

/-- A component with its clones, whose numbers are `x` and `y`, and the edges moved to them. -/
def reattached (g : Graph) (p q : Node) (s reach : Finset String) (x y : Option Nat) : Graph where
  nodes := g.nodes.filter (·.id ∈ s) ++ (y.map q.clone).toList ++ (x.map p.clone).toList
  edges := (g.edges.filter (·.BelongsTo p q s reach)).map (·.rename (toClones p q x y))

/-! ### A component on its way through the cuts -/

variable {g c d : Graph} {p q : Node} {i k : Nat} {u : String}

@[simp] theorem mem_withClone {s : Finset String} {n : Node} {x : Option Nat} :
    u ∈ withClone s n x ↔ u ∈ s ∨ ∃ k, x = some k ∧ (n.clone k).id = u := by
  rw [withClone, Finset.mem_union, Option.mem_toFinset, Option.mem_def, Option.map_eq_some_iff]

/-- A component after a cut has its own names, and that of its clone. -/
theorem idSet_attached (edges : List Edge) (p : Node) (c : Graph) (i : Nat) :
    (attached edges p c i).idSet = withClone c.idSet p (cloneNumber edges p c.idSet i) := by
  ext u
  rw [mem_idSet, ids_attached, List.mem_append, Option.mem_toList, Option.map_eq_some_iff,
    mem_withClone, mem_idSet]

theorem toClones_of_ne_first {x y : Option Nat} (hu : u ≠ p.id) :
    toClones p q x y u = Function.update id q.id (q.cloneName y) u :=
  Function.update_of_ne hu _ _

/-- A name that is not the second node's becomes that of a clone only if it is the first node's. -/
theorem toClones_of_ne_second {x y : Option Nat} (hu : u ≠ q.id) :
    toClones p q x y u = Function.update id p.id (p.cloneName x) u := by
  unfold toClones
  by_cases hp : u = p.id
  · rw [hp, Function.update_self, Function.update_self]
  · rw [Function.update_of_ne hp, Function.update_of_ne hu, Function.update_of_ne hp]

/-- Component `c`, number `i`, of the graph without the pair has become component `d`, number `k`,
    of the halves. -/
structure Halfway (g : Graph) (p q : Node) (i : Nat) (c : Graph) (k : Nat) (d : Graph) : Prop where
  before : ((g.without p.id).without q.id).components[i]? = some c
  after : (ofPieces (g.halves p q)).components[k]? = some d
  nodes : d.nodes.Perm (attached (g.without p.id).edges q c i).nodes
  edges : d.edges = (attached (g.without p.id).edges q c i).edges

/-- The number of the clone of the second node. -/
def secondNumber (g : Graph) (p q : Node) (c : Graph) (i : Nat) : Option Nat :=
  cloneNumber (g.without p.id).edges q c.idSet i

/-- The number of the clone of the first node. -/
def firstNumber (g : Graph) (p q : Node) (d : Graph) (k : Nat) : Option Nat :=
  cloneNumber (g.rejoined p q).edges p d.idSet k

/-- A half is a component with its clone. -/
theorem mem_halves {r : Graph} : r ∈ (g.halves p q).map Piece.graph ↔
    ∃ i c, ((g.without p.id).without q.id).components[i]? = some c ∧
      attached (g.without p.id).edges q c i = r := by
  rw [halves, mem_map_pieces]
  refine exists_congr fun i => exists_congr fun c => and_congr_right fun hc => ?_
  rw [piece_eq (pivot_not_mem_component (List.mem_of_getElem? hc))]
  simp

namespace Pivots

variable (h : g.Pivots p q)
include h

/-- Each component before the cuts becomes one after the first cut. -/
theorem exists_halfway_of_before
    (hc : ((g.without p.id).without q.id).components[i]? = some c) :
    ∃ k d, Halfway g p q i c k d := by
  obtain ⟨d, hd, hnodes, hedges⟩ := h.halves_parts.exists_component (mem_halves.mpr ⟨i, c, hc, rfl⟩)
  rw [← ofPieces_eq] at hd
  obtain ⟨k, hk⟩ := List.getElem?_of_mem hd
  exact ⟨k, d, hc, hk, hnodes, hedges⟩

/-- Each component after the first cut comes from one before it. -/
theorem exists_halfway_of_after (hd : (ofPieces (g.halves p q)).components[k]? = some d) :
    ∃ i c, Halfway g p q i c k d := by
  have hmem := List.mem_of_getElem? hd
  rw [ofPieces_eq] at hmem
  obtain ⟨r, hr, hnodes, hedges⟩ := h.halves_parts.exists_part hmem
  obtain ⟨i, c, hc, rfl⟩ := mem_halves.mp hr
  exact ⟨i, c, hc, hd, hnodes, hedges⟩

end Pivots

section Filters

variable (h : g.Pivots p q) {s : Finset String}
include h

/-- The first cut moves what leads from the second node to a component. -/
theorem Pivots.filter_second (hp : p.id ∉ s) :
    (g.without p.id).edges.filter (·.Attaches q.id s) = g.edges.filter (·.Attaches q.id s) := by
  rw [without, List.filter_filter]
  apply List.filter_congr
  intro e _
  by_cases hatt : e.Attaches q.id s
  · -- the other end is a member, and so the edge does not touch the first node
    have untouched : e.touches p.id = false := by
      rw [← Bool.not_eq_true, Edge.touches_iff]
      rintro (hsource | htarget)
      · rcases hatt with ⟨hq, -⟩ | ⟨-, hs⟩
        · exact h.ne (hsource.symm.trans hq)
        · exact hp (hsource ▸ hs)
      · rcases hatt with ⟨-, hs⟩ | ⟨hq, -⟩
        · exact hp (htarget ▸ hs)
        · exact h.ne (htarget.symm.trans hq)
    rw [decide_eq_true hatt, untouched, Bool.not_false, Bool.and_true]
  · rw [decide_eq_false hatt, Bool.false_and]

/-- The second cut moves what leads from the first node to a component. -/
theorem Pivots.filter_first :
    (g.rejoined p q).edges.filter (·.Attaches p.id s) = g.edges.filter (·.Attaches p.id s) := by
  -- the halves are closed, and the first node is none of theirs
  have none_before : (ofPieces (g.halves p q)).edges.filter (·.Attaches p.id s) = [] := by
    apply List.filter_eq_nil_iff.mpr
    intro e he hatt
    have ends := h.halves_closed e he
    rcases of_decide_eq_true hatt with ⟨hp, -⟩ | ⟨hp, -⟩
    · exact h.first_not_mem_halves (hp ▸ ends.1)
    · exact h.first_not_mem_halves (hp ▸ ends.2)
  have all_after : (g.edgesAt p.id).filter (·.Attaches p.id s)
      = g.edges.filter (·.Attaches p.id s) := by
    rw [edgesAt, List.filter_filter]
    apply List.filter_congr
    intro e _
    by_cases hatt : e.Attaches p.id s
    · have touched : e.touches p.id = true := Edge.touches_iff.mpr (hatt.imp And.left And.left)
      rw [decide_eq_true hatt, touched, Bool.and_true]
    · rw [decide_eq_false hatt, Bool.false_and]
  rw [rejoined, append, List.filter_append, none_before, all_after, List.nil_append]

end Filters

namespace Halfway

section Component

variable (m : Halfway g p q i c k d)
include m

theorem component_mem : c ∈ ((g.without p.id).without q.id).components :=
  List.mem_of_getElem? m.before

theorem second_not_mem : q.id ∉ c.idSet :=
  fun hq => pivot_not_mem_component m.component_mem (mem_idSet.mp hq)

theorem first_not_mem : p.id ∉ c.idSet := by
  intro hp
  have := ids_subset_of_component m.component_mem (mem_idSet.mp hp)
  exact (mem_ids_without.mp (mem_ids_without.mp this).1).2 rfl

/-- Halfway the component has its clone of the second node. -/
theorem idSet_eq : d.idSet = withClone c.idSet q (secondNumber g p q c i) := by
  rw [secondNumber, ← idSet_attached]
  ext u
  have ids_perm : d.ids.Perm (attached (g.without p.id).edges q c i).ids := m.nodes.map Node.id
  rw [mem_idSet, mem_idSet, ids_perm.mem_iff]

/-- The edges between members are those of the graph. -/
theorem component_edges (h : g.Distinct) :
    c.edges = g.edges.filter fun e => e.source ∈ c.idSet ∧ e.target ∈ c.idSet := by
  rw [((h.without p.id).without q.id).component_edges_eq_restrict m.component_mem]
  simp only [restrict, without, List.filter_filter]
  apply List.filter_congr
  intro e _
  by_cases hin : e.source ∈ c.idSet ∧ e.target ∈ c.idSet
  · -- an edge between members touches neither node of the pair
    have untouched : ∀ v, v ∉ c.idSet → e.touches v = false := by
      intro v hv
      rw [← Bool.not_eq_true, Edge.touches_iff]
      rintro (heq | heq)
      · exact hv (heq ▸ hin.1)
      · exact hv (heq ▸ hin.2)
    rw [decide_eq_true hin, untouched _ m.first_not_mem, untouched _ m.second_not_mem]
    rfl
  · rw [decide_eq_false hin, Bool.false_and]

/-- The nodes of the component are those of the graph. -/
theorem component_nodes (h : g.Distinct) : c.nodes.Perm (g.nodes.filter (·.id ∈ c.idSet)) := by
  refine (((h.without p.id).without q.id).component_nodes_perm_restrict m.component_mem).trans
    (List.Perm.of_eq ?_)
  simp only [restrict, without, List.filter_filter]
  apply List.filter_congr
  intro n _
  by_cases hin : n.id ∈ c.idSet
  · have hp : n.id ≠ p.id := fun heq => m.first_not_mem (heq ▸ hin)
    have hq : n.id ≠ q.id := fun heq => m.second_not_mem (heq ▸ hin)
    rw [decide_eq_true hin, bne_iff_ne.mpr hp, bne_iff_ne.mpr hq]
    rfl
  · rw [decide_eq_false hin, Bool.false_and]

/-- **The nodes of a piece.** -/
theorem attached_nodes (h : g.Distinct) :
    (attached (g.rejoined p q).edges p d k).nodes.Perm
      (g.reattached p q c.idSet d.idSet (firstNumber g p q d k)
        (secondNumber g p q c i)).nodes := by
  have half : d.nodes.Perm
      (g.nodes.filter (·.id ∈ c.idSet) ++ ((secondNumber g p q c i).map q.clone).toList) :=
    m.nodes.trans ((m.component_nodes h).append_right _)
  exact half.append_right _

end Component

/-! ### The edges of a piece -/

/-- Three kinds of elements that exclude each other. -/
theorem filter_or_perm {α : Type*} (l : List α) (P Q R : α → Prop) [DecidablePred P]
    [DecidablePred Q] [DecidablePred R] (hPQ : ∀ a, P a → ¬ (Q a ∨ R a)) (hQR : ∀ a, Q a → ¬ R a) :
    (l.filter fun a => P a ∨ Q a ∨ R a).Perm (l.filter P ++ l.filter Q ++ l.filter R) := by
  have two : ∀ (S T : α → Prop) [DecidablePred S] [DecidablePred T], (∀ a, S a → ¬ T a) →
      (l.filter fun a => S a ∨ T a).Perm (l.filter S ++ l.filter T) := by
    intro S T _ _ hST
    refine (List.filter_append_perm (fun a => decide (S a)) _).symm.trans (List.Perm.of_eq ?_)
    rw [List.filter_filter, List.filter_filter]
    congr 1
    · apply List.filter_congr
      intro a _
      by_cases hS : S a <;> simp [hS]
    · apply List.filter_congr
      intro a _
      by_cases hS : S a
      · simp [hS, hST a hS]
      · simp [hS]
  refine (two P (fun a => Q a ∨ R a) hPQ).trans ?_
  rw [List.append_assoc]
  exact (two Q R hQR).append_left _

section Edges

variable (h : g.Pivots p q) (m : Halfway g p q i c k d)
include h m

theorem first_not_mem_after : p.id ∉ d.idSet :=
  fun hp => h.first_not_mem_halves
    (ids_subset_of_component (List.mem_of_getElem? m.after) (mem_idSet.mp hp))

omit h in
/-- The second node is gone after the cut at it. -/
theorem second_not_mem_after : q.id ∉ d.idSet := by
  rw [m.idSet_eq, mem_withClone, not_or]
  refine ⟨m.second_not_mem, ?_⟩
  rintro ⟨j, -, hj⟩
  exact cloneId_ne q.id j hj

/-- An edge belongs to a component in one way only. -/
theorem belongs_perm : (g.edges.filter (·.BelongsTo p q c.idSet d.idSet)).Perm
    (g.edges.filter (fun e => e.source ∈ c.idSet ∧ e.target ∈ c.idSet) ++
      g.edges.filter (·.Attaches q.id c.idSet) ++ g.edges.filter (·.Attaches p.id d.idSet)) := by
  refine filter_or_perm g.edges _ _ _ (fun e hin => ?_) fun e hq hp => ?_
  · rintro ((⟨heq, -⟩ | ⟨heq, -⟩) | (⟨heq, -⟩ | ⟨heq, -⟩))
    · exact m.second_not_mem (heq ▸ hin.1)
    · exact m.second_not_mem (heq ▸ hin.2)
    · exact m.first_not_mem (heq ▸ hin.1)
    · exact m.first_not_mem (heq ▸ hin.2)
  · rcases hq with ⟨hq, hs⟩ | ⟨hq, hs⟩ <;> rcases hp with ⟨hp, -⟩ | ⟨hp, -⟩
    · exact h.ne (hp.symm.trans hq)
    · exact m.first_not_mem (hp ▸ hs)
    · exact m.first_not_mem (hp ▸ hs)
    · exact h.ne (hp.symm.trans hq)

omit h in
/-- The edges between members stay. -/
theorem map_inner (x y : Option Nat) :
    (g.edges.filter fun e => e.source ∈ c.idSet ∧ e.target ∈ c.idSet).map
        (·.rename (toClones p q x y))
      = g.edges.filter fun e => e.source ∈ c.idSet ∧ e.target ∈ c.idSet := by
  have fixed : ∀ v ∈ c.idSet, toClones p q x y v = v := by
    intro v hv
    have hp : v ≠ p.id := fun heq => m.first_not_mem (heq ▸ hv)
    have hq : v ≠ q.id := fun heq => m.second_not_mem (heq ▸ hv)
    rw [toClones_of_ne_first hp, Function.update_of_ne hq, id]
  refine (List.map_congr_left fun e he => ?_).trans (List.map_id _)
  have hin := of_decide_eq_true (List.mem_filter.mp he).2
  show e.rename (toClones p q x y) = e.rename id
  exact Edge.rename_congr (fixed _ hin.1) (fixed _ hin.2)

omit h m in
/-- What leads from a node to `s` is moved by a map that takes the node to its clone. -/
theorem map_attaches {edges : List Edge} {n : Node} {s : Finset String} {f : String → String}
    (hf : (∃ e ∈ edges, e.Attaches n.id s) → ∀ v, v = n.id ∨ v ∈ s →
      f v = Function.update id n.id (n.clone i).id v) :
    (edges.filter (·.Attaches n.id s)).map (·.rename f) = movedEdges edges n s i := by
  rw [movedEdges]
  apply List.map_congr_left
  intro e he
  obtain ⟨he, hatt⟩ := List.mem_filter.mp he
  have hatt := of_decide_eq_true hatt
  have moved := hf ⟨e, he, hatt⟩
  exact Edge.rename_congr (moved _ hatt.source_mem) (moved _ hatt.target_mem)

/-- The edges of the second node are moved to its clone. -/
theorem map_second (x : Option Nat) :
    (g.edges.filter (·.Attaches q.id c.idSet)).map
        (·.rename (toClones p q x (secondNumber g p q c i)))
      = movedEdges (g.without p.id).edges q c.idSet i := by
  rw [← h.filter_second m.first_not_mem]
  apply map_attaches
  intro hatt v hv
  have number : secondNumber g p q c i = some i := if_pos hatt
  have hp : v ≠ p.id := by
    rintro rfl
    exact hv.elim h.ne m.first_not_mem
  rw [toClones_of_ne_first hp, number]
  rfl

/-- The edges of the first node are moved to its clone. -/
theorem map_first (y : Option Nat) :
    (g.edges.filter (·.Attaches p.id d.idSet)).map
        (·.rename (toClones p q (firstNumber g p q d k) y))
      = movedEdges (g.rejoined p q).edges p d.idSet k := by
  rw [← h.filter_first]
  apply map_attaches
  intro hatt v hv
  have number : firstNumber g p q d k = some k := if_pos hatt
  have hq : v ≠ q.id := by
    rintro rfl
    exact hv.elim (fun heq => h.ne heq.symm) m.second_not_mem_after
  rw [toClones_of_ne_second hq, number]
  rfl

/-- **The edges of a piece**, before a link is added. -/
theorem attached_edges :
    (attached (g.rejoined p q).edges p d k).edges.Perm
      (g.reattached p q c.idSet d.idSet (firstNumber g p q d k)
        (secondNumber g p q c i)).edges := by
  have perm := (belongs_perm h m).map
    (·.rename (toClones p q (firstNumber g p q d k) (secondNumber g p q c i)))
  rw [List.map_append, List.map_append, map_inner m, map_second h m, map_first h m,
    ← m.component_edges h.distinct] at perm
  have half : d.edges = c.edges ++ movedEdges (g.without p.id).edges q c.idSet i := m.edges
  rw [← half] at perm
  exact perm.symm

end Edges

end Halfway

end Graph

end Drafting
