import Drafting.Proofs.Graph.PairSplit
import Drafting.Proofs.Graph.Splits

namespace Drafting

/-!
# From one graph to the next

A decomposition goes from graph to graph.  Each of them has clear names if the first one has, and so
every split that is asked for can be made:

* `Graph.Clear` — distinct names, none of them that of a clone of another node;
* `Graph.PairSplit.of_mem_nodes` — a node after a split was there before, or is a clone;
* `Graph.PairSplit.clear` — names stay clear;
* `Graph.Step` — a split at the first articulation pair, with all that is known of it.
-/

namespace Graph

variable {g r : Graph} {p q n : Node} {a b u v w : String}
  {reach : Finset String → Option Nat → Finset String}

/-- Names are distinct, and none of them is that of a clone of another node. -/
structure Clear (g : Graph) : Prop where
  distinct : g.Distinct
  apart : g.NamesApart

/-! ### The nodes of a split graph -/

/-- The nodes of a component with its clones. -/
theorem mem_nodes_reattached {s reach : Finset String} {x y : Option Nat} :
    n ∈ (g.reattached p q s reach x y).nodes ↔
      (n ∈ g.nodes ∧ n.id ∈ s) ∨ (∃ i, y = some i ∧ q.clone i = n) ∨
        ∃ k, x = some k ∧ p.clone k = n := by
  simp only [reattached, List.mem_append, List.mem_filter, decide_eq_true_eq, Option.mem_toList,
    Option.map_eq_some_iff, or_assoc]

namespace SplitComponent

variable {s t : Finset String} {x y : Option Nat} (h : SplitComponent g p q s t x y r)
include h

theorem mem_nodes (hn : n ∈ (g.reattached p q s t x y).nodes) : n ∈ r.nodes :=
  (mem_nodes_restrict.mp (h.nodes.mem_iff.mpr hn)).1

theorem first_clone_mem {k : Nat} (hx : x = some k) : p.clone k ∈ r.nodes :=
  h.mem_nodes (mem_nodes_reattached.mpr (Or.inr (Or.inr ⟨k, hx, rfl⟩)))

theorem second_clone_mem {i : Nat} (hy : y = some i) : q.clone i ∈ r.nodes :=
  h.mem_nodes (mem_nodes_reattached.mpr (Or.inr (Or.inl ⟨i, hy, rfl⟩)))

end SplitComponent

namespace PairSplit

variable (h : PairSplit g p q reach r)
include h

/-- A node belongs to what has become of a component. -/
theorem exists_splitComponent (hn : n ∈ r.nodes) : ∃ s x y,
    ((g.without p.id).without q.id).IsComponent s ∧ SplitComponent g p q s (reach s y) x y r ∧
      n ∈ (g.reattached p q s (reach s y) x y).nodes := by
  obtain ⟨t, ht, hmem⟩ := h.distinct.exists_isComponent (List.mem_map_of_mem hn)
  obtain ⟨s, x, y, hs, hsplit, rfl⟩ := h.of_component t ht
  exact ⟨s, x, y, hs, hsplit, hsplit.nodes.mem_iff.mp (mem_nodes_restrict.mpr ⟨hn, hmem⟩)⟩

/-- **Nodes after a split.**  They were there before, or they are clones. -/
theorem of_mem_nodes (hn : n ∈ r.nodes) : (n ∈ g.nodes ∧ n.id ≠ p.id ∧ n.id ≠ q.id) ∨
    (∃ k, p.clone k = n) ∨ ∃ i, q.clone i = n := by
  obtain ⟨s, x, y, hs, -, hmem⟩ := h.exists_splitComponent hn
  rcases mem_nodes_reattached.mp hmem with ⟨hn, hid⟩ | ⟨i, -, hi⟩ | ⟨k, -, hk⟩
  · have hid := hs.mem_ids hid
    rw [mem_ids_without, mem_ids_without] at hid
    exact Or.inl ⟨hn, hid.1.2, hid.2⟩
  · exact Or.inr (Or.inr ⟨i, hi⟩)
  · exact Or.inr (Or.inl ⟨k, hk⟩)

/-- The other nodes stay. -/
theorem mem_nodes_of_ne (hg : g.Distinct) (hn : n ∈ g.nodes) (hp : n.id ≠ p.id) (hq : n.id ≠ q.id) :
    n ∈ r.nodes := by
  have hid : n.id ∈ ((g.without p.id).without q.id).ids :=
    mem_ids_without.mpr ⟨mem_ids_without.mpr ⟨List.mem_map_of_mem hn, hp⟩, hq⟩
  obtain ⟨s, hs, hmem⟩ := ((hg.without p.id).without q.id).exists_isComponent hid
  obtain ⟨x, y, hsplit⟩ := h.component s hs
  exact hsplit.mem_nodes (mem_nodes_reattached.mpr (Or.inl ⟨hn, hmem⟩))

/-- The names after a split. -/
theorem of_mem_ids (hu : u ∈ r.ids) : (u ∈ g.ids ∧ u ≠ p.id ∧ u ≠ q.id) ∨
    ∃ v, (v = p.id ∨ v = q.id) ∧ ∃ k, u = cloneId v k := by
  obtain ⟨n, hn, rfl⟩ := List.mem_map.mp hu
  rcases h.of_mem_nodes hn with ⟨hn, hne⟩ | ⟨k, rfl⟩ | ⟨i, rfl⟩
  · exact Or.inl ⟨List.mem_map_of_mem hn, hne⟩
  · exact Or.inr ⟨p.id, Or.inl rfl, k, rfl⟩
  · exact Or.inr ⟨q.id, Or.inr rfl, i, rfl⟩

end PairSplit

/-- A node after a split descends from one before it. -/
theorem PairSplit.exists_descends (hsplit : PairSplit g p q reach r) (h : g.Pivots p q)
    (hu : u ∈ r.ids) : ∃ w ∈ g.ids, Descends w u := by
  rcases hsplit.of_mem_ids hu with ⟨hu, -⟩ | ⟨w, rfl | rfl, k, rfl⟩
  · exact ⟨u, hu, .self⟩
  · exact ⟨p.id, h.first_mem_ids, descends_cloneId p.id k⟩
  · exact ⟨q.id, h.second_mem_ids, descends_cloneId q.id k⟩

/-- A node of the pair is gone, and it does not come back as a clone. -/
theorem PairSplit.not_descends_pivot (hsplit : PairSplit g p q reach r) (h : g.Pivots p q)
    (hu : u ∈ r.ids) (hw : w = p.id ∨ w = q.id) : ¬ Descends u w := by
  have pivot_mem : ∀ w, w = p.id ∨ w = q.id → w ∈ g.ids := by
    rintro w (rfl | rfl)
    · exact h.first_mem_ids
    · exact h.second_mem_ids
  intro hdesc
  rcases hsplit.of_mem_ids hu with ⟨hu, hup, huq⟩ | ⟨w', hw', k, rfl⟩
  · obtain rfl := h.apart u hu w (pivot_mem w hw) hdesc
    exact hw.elim hup huq
  · -- a clone is longer than its original
    obtain rfl := h.apart w' (pivot_mem w' hw') w (pivot_mem w hw)
      ((descends_cloneId w' k).trans hdesc)
    exact cloneId_ne w k ((descends_cloneId w k).antisymm hdesc)

/-- **Names stay clear.** -/
theorem PairSplit.clear (hsplit : PairSplit g p q reach r) (h : g.Pivots p q) : r.Clear := by
  refine ⟨hsplit.distinct, fun u hu v hv hdesc => ?_⟩
  rcases hsplit.of_mem_ids hv with ⟨hv, -⟩ | ⟨w, hw, j, rfl⟩
  · -- an old node that descends from a clone would descend from its original
    obtain ⟨w, hmem, hwu⟩ := hsplit.exists_descends h hu
    obtain rfl := h.apart w hmem v hv (hwu.trans hdesc)
    exact hdesc.antisymm hwu
  · rcases hdesc.of_cloneId with rfl | hdesc
    · rfl
    · exact absurd hdesc (hsplit.not_descends_pivot h hu hw)

/-- The members of a component are neither the nodes of the pair nor clones of them. -/
theorem Pivots.ne_clone_of_component (h : g.Pivots p q) {s : Finset String}
    (hs : ((g.without p.id).without q.id).IsComponent s) (hv : v ∈ s) :
    v ≠ p.id ∧ v ≠ q.id ∧ (∀ k, v ≠ (p.clone k).id) ∧ ∀ i, v ≠ (q.clone i).id := by
  have hrest := hs.mem_ids hv
  simp only [mem_ids_without] at hrest
  refine ⟨hrest.1.2, hrest.2, ?_, ?_⟩
  · rintro k rfl
    exact h.first_clone_not_mem k hrest.1.1
  · rintro i rfl
    exact h.second_clone_not_mem i hrest.1.1

/-! ### One step -/

/-- The graph `r` is `g` split at its first articulation pair, that of `p` and `q`. -/
structure Step (g : Graph) (p q : Node) (r : Graph) : Prop where
  pivots : g.Pivots p q
  first : g.articulationPairs.head? = some (p.id, q.id)
  cut : (g.without p.id).IsCutVertex q.id ∨ (g.without q.id).IsCutVertex p.id
  eq : g.splitAtPair p.id q.id = .ok r
  split : PairSplit g p q (fun s y => withClone s q y) r

/-- While there is a pair, there is a step. -/
theorem Clear.exists_step (h : g.Clear) (hpairs : g.articulationPairs ≠ []) :
    ∃ p q r, Step g p q r := by
  obtain ⟨⟨a, b⟩, rest, hlist⟩ := List.exists_cons_of_ne_nil hpairs
  have hmem : (a, b) ∈ g.articulationPairs := hlist ▸ List.mem_cons_self
  obtain ⟨ha, hb, hlt, hcut⟩ := h.distinct.mem_articulationPairs.mp hmem
  obtain ⟨p, hp, rfl⟩ := List.mem_map.mp ha
  obtain ⟨q, hq, rfl⟩ := List.mem_map.mp hb
  have pivots : g.Pivots p q := ⟨h.distinct, h.apart, hp, hq, hlt.ne⟩
  obtain ⟨r, heq, hsplit⟩ := pivots.splitAtPair_spec
  exact ⟨p, q, r, pivots, by rw [hlist, List.head?_cons], hcut, heq, hsplit⟩

namespace Step

variable (h : Step g p q r)
include h

theorem clear : r.Clear := h.split.clear h.pivots

/-- Where there is a step, there is a pair. -/
theorem pairs_ne_nil : g.articulationPairs ≠ [] := by
  intro hnil
  have := h.first
  rw [hnil] at this
  cases this

/-- A step is the split at the first pair. -/
theorem splitFirst_eq : g.splitFirst = .ok r := by
  have hfirst := h.first
  unfold splitFirst
  split
  · next a b rest hlist =>
    rw [hlist, List.head?_cons, Option.some.injEq, Prod.mk.injEq] at hfirst
    rw [hfirst.1, hfirst.2]
    exact h.eq
  · next hnil => exact absurd hnil h.pairs_ne_nil

end Step

end Graph

end Drafting
