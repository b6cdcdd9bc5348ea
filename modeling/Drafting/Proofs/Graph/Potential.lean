import Drafting.Proofs.Graph.Classes
import Drafting.Proofs.Graph.Lineage

namespace Drafting

/-!
# What a split costs

A split adds clones, and so there are more nodes after it than before.  But the components are
smaller.  A component of `n` nodes is given the weight `2 n - 5`, or zero if it has one or two
nodes; the potential of a graph is the weight of all its components.

* `Graph.Distinct.sum_classes` — a sum over the classes of a graph, in terms of those of the graph
  without a node;
* `Graph.Pivots.potential_cases` — the potential, in terms of the classes without the pair;
* `Graph.Step.potential_le` — a split lowers the potential if all edges lead to known nodes, and
  in any case it raises the potential by no more than one.
-/

namespace Graph

variable {g r : Graph} {p q : Node} {u v : String} {s : Finset String}

/-- The weight of a component of `n` nodes. -/
def weight (n : Nat) : Nat := 2 * n - 5

/-- The weight of all components. -/
def potential (g : Graph) : Nat := ∑ s ∈ g.classes, weight s.card

/-! ### Sums over classes -/

/-- The number of nodes in classes that come together at a node. -/
theorem Distinct.card_insert_reaching (h : g.Distinct) :
    (insert v ((g.reaching (g.without v).classes v).biUnion id)).card
      = 1 + ∑ s ∈ g.reaching (g.without v).classes v, s.card := by
  have hv : v ∉ (g.reaching (g.without v).classes v).biUnion id := by
    rw [Finset.mem_biUnion]
    rintro ⟨s, hs, hvs⟩
    exact h.not_mem_of_mem_classes_without (mem_reaching.mp hs).1 hvs
  have disjoint : Set.PairwiseDisjoint
      ((g.reaching (g.without v).classes v : Finset _) : Set (Finset String)) id :=
    (h.without v).pairwiseDisjoint_classes.subset
      (Finset.coe_subset.mpr (reaching_subset g _ v))
  rw [Finset.card_insert_of_notMem hv, Finset.card_biUnion disjoint, Nat.add_comm]
  rfl

/-- **Sums over classes.** -/
theorem Distinct.sum_classes (h : g.Distinct) (hv : v ∈ g.ids) (f : Nat → Nat) :
    ∑ s ∈ g.classes, f s.card
      = f (1 + ∑ s ∈ g.reaching (g.without v).classes v, s.card)
        + ∑ s ∈ (g.without v).classes \ g.reaching (g.without v).classes v, f s.card := by
  have fresh : insert v ((g.reaching (g.without v).classes v).biUnion id)
      ∉ (g.without v).classes \ g.reaching (g.without v).classes v := fun hmem =>
    h.not_mem_of_mem_classes_without (Finset.mem_sdiff.mp hmem).1 (Finset.mem_insert_self v _)
  rw [h.classes_eq_insert hv, Finset.sum_insert fresh, h.card_insert_reaching]

/-- The classes hold every node once. -/
theorem Distinct.sum_card_classes (h : g.Distinct) : ∑ s ∈ g.classes, s.card = g.size := by
  have all : g.classes.biUnion id = g.idSet := by
    ext u
    rw [Finset.mem_biUnion, mem_idSet]
    constructor
    · rintro ⟨s, hs, hu⟩
      exact (h.mem_classes.mp hs).mem_ids hu
    · intro hu
      obtain ⟨s, hs, hus⟩ := h.exists_mem_classes hu
      exact ⟨s, hs, hus⟩
  have card := Finset.card_biUnion h.pairwiseDisjoint_classes
  rw [all, idSet, List.toFinset_card_of_nodup h, ids, List.length_map] at card
  exact card.symm

/-- A bound for each class is a bound for the sum. -/
theorem sum_add_le {cs : Finset (Finset String)} {f : Finset String → Nat} {c : Nat}
    (h : ∀ s ∈ cs, f s + c ≤ 2 * s.card) :
    ∑ s ∈ cs, f s + c * cs.card ≤ 2 * ∑ s ∈ cs, s.card := by
  have bound := Finset.sum_le_sum h
  rw [Finset.sum_add_distrib, Finset.sum_const, smul_eq_mul, ← Finset.mul_sum] at bound
  rw [Nat.mul_comm c]
  exact bound

/-- The potential is less than twice the number of nodes. -/
theorem Distinct.potential_add_two_le (h : g.Distinct) (hsize : 1 ≤ g.size) :
    g.potential + 2 ≤ 2 * g.size := by
  have bound : g.potential + 2 * g.classes.card ≤ 2 * ∑ s ∈ g.classes, s.card := by
    apply sum_add_le
    intro s hs
    have := h.one_le_card_of_mem_classes hs
    unfold weight
    omega
  have nonempty : 1 ≤ g.classes.card := by
    have length_pos : 0 < g.ids.length := by
      rw [ids, List.length_map]
      exact hsize
    obtain ⟨u, hu⟩ := List.exists_mem_of_length_pos length_pos
    obtain ⟨s, hs, -⟩ := h.exists_mem_classes hu
    exact Finset.card_pos.mpr ⟨s, hs⟩
  rw [h.sum_card_classes] at bound
  omega

/-! ### The potential before a split -/

/-- The neighbours of a node are the same without another node. -/
theorem reaching_without {cs : Finset (Finset String)} (hne : v ≠ u) (hu : ∀ s ∈ cs, u ∉ s) :
    (g.without u).reaching cs v = g.reaching cs v := by
  ext s
  rw [mem_reaching, mem_reaching]
  refine and_congr_right fun hs => exists_congr fun w => and_congr_right fun hw => ?_
  rw [joined_without]
  exact ⟨fun step => step.1, fun step => ⟨step, hne, fun heq => hu s hs (heq ▸ hw)⟩⟩

namespace Pivots

variable (h : g.Pivots p q)
include h

/-- The classes without the pair hold neither node of it. -/
theorem not_mem_of_mem_classes (hs : s ∈ ((g.without p.id).without q.id).classes) :
    p.id ∉ s ∧ q.id ∉ s := by
  have hcomp := (((h.distinct.without p.id).without q.id).mem_classes.mp hs)
  constructor
  · intro hp
    exact (mem_ids_without.mp (mem_ids_without.mp (hcomp.mem_ids hp)).1).2 rfl
  · intro hq
    exact (mem_ids_without.mp (hcomp.mem_ids hq)).2 rfl

/-- Without the first node, the second one has a class of its own, made of those that it has
    neighbours in. -/
theorem exists_class_second {cs qs : Finset (Finset String)}
    (hcs : cs = ((g.without p.id).without q.id).classes) (hqs : qs = g.reaching cs q.id) :
    ∃ own, (g.without p.id).classes = insert own (cs \ qs) ∧ own ∉ cs ∧
      own.card = 1 + ∑ s ∈ qs, s.card ∧ ∀ s ∈ qs, s ⊆ own := by
  have hrest := h.distinct.without p.id
  have hq : q.id ∈ (g.without p.id).ids := mem_ids_without.mpr ⟨h.second_mem_ids, h.ne.symm⟩
  have reaching_eq : (g.without p.id).reaching cs q.id = qs := by
    rw [hqs]
    exact reaching_without h.ne.symm fun s hs => (h.not_mem_of_mem_classes (hcs ▸ hs)).1
  have classes_eq := hrest.classes_eq_insert hq
  have own_card := hrest.card_insert_reaching (v := q.id)
  rw [← hcs, reaching_eq] at classes_eq own_card
  refine ⟨insert q.id (qs.biUnion id), classes_eq, fun hmem => ?_, own_card, fun s hs => ?_⟩
  · exact (h.not_mem_of_mem_classes (hcs ▸ hmem)).2 (Finset.mem_insert_self q.id _)
  · exact (Finset.subset_biUnion_of_mem id hs).trans (Finset.subset_insert _ _)

/-- **The potential before a split.**  Either the pair lies in one class, or each node of it has
    its own. -/
theorem potential_cases {cs ps qs : Finset (Finset String)}
    (hcs : cs = ((g.without p.id).without q.id).classes) (hps : ps = g.reaching cs p.id)
    (hqs : qs = g.reaching cs q.id) :
    g.potential = weight (2 + ∑ s ∈ ps ∪ qs, s.card) + ∑ s ∈ cs \ (ps ∪ qs), weight s.card ∨
      (Disjoint ps qs ∧ g.potential = weight (1 + ∑ s ∈ ps, s.card) + weight (1 + ∑ s ∈ qs, s.card)
        + ∑ s ∈ cs \ (ps ∪ qs), weight s.card) := by
  have sum_eq := h.distinct.sum_classes h.first_mem_ids weight
  obtain ⟨own, classes_eq, own_not_mem, own_card, subset_own⟩ := h.exists_class_second hcs hqs
  have own_not_mem_ps : own ∉ ps := fun hmem => own_not_mem ((hps ▸ reaching_subset g cs p.id) hmem)
  by_cases hjoined : ∃ u ∈ own, g.Joined p.id u
  · left
    have reached : g.reaching (g.without p.id).classes p.id = insert own (ps \ qs) := by
      rw [classes_eq, reaching_insert_of_joined hjoined, reaching_sdiff, ← hps]
    have others : (g.without p.id).classes \ insert own (ps \ qs) = cs \ (ps ∪ qs) := by
      rw [classes_eq, Finset.insert_sdiff_insert, Finset.sdiff_insert_of_notMem fun hmem =>
        own_not_mem (Finset.mem_sdiff.mp hmem).1, sdiff_sdiff, Finset.sup_eq_union,
        Finset.union_sdiff_self_eq_union, Finset.union_comm]
    have fresh : own ∉ ps \ qs := fun hmem => own_not_mem_ps (Finset.mem_sdiff.mp hmem).1
    have union_sum : ∑ s ∈ ps ∪ qs, s.card = ∑ s ∈ ps \ qs, s.card + ∑ s ∈ qs, s.card := by
      rw [← Finset.sdiff_union_self_eq_union, Finset.sum_union Finset.sdiff_disjoint]
    have total : 1 + (1 + ∑ s ∈ qs, s.card + ∑ s ∈ ps \ qs, s.card)
        = 2 + ∑ s ∈ ps ∪ qs, s.card := by omega
    rw [reached, others, Finset.sum_insert fresh, own_card, total] at sum_eq
    exact sum_eq
  · right
    -- a class that both nodes reach would join the first one to the class of the second
    have disjoint : Disjoint ps qs := by
      refine Finset.disjoint_left.mpr fun t htp htq => hjoined ?_
      obtain ⟨u, hu, hpu⟩ := (mem_reaching.mp (hps ▸ htp)).2
      exact ⟨u, subset_own t htq hu, hpu⟩
    have reached : g.reaching (g.without p.id).classes p.id = ps := by
      rw [classes_eq, reaching_insert_of_not_joined hjoined, reaching_sdiff, ← hps,
        Finset.sdiff_eq_self_of_disjoint disjoint]
    have others : (g.without p.id).classes \ ps = insert own (cs \ (ps ∪ qs)) := by
      rw [classes_eq, Finset.insert_sdiff_of_notMem _ own_not_mem_ps, sdiff_sdiff,
        Finset.sup_eq_union, Finset.union_comm]
    have fresh : own ∉ cs \ (ps ∪ qs) := fun hmem => own_not_mem (Finset.mem_sdiff.mp hmem).1
    rw [reached, others, Finset.sum_insert fresh, own_card, ← Nat.add_assoc] at sum_eq
    exact ⟨disjoint, sum_eq⟩

end Pivots

/-! ### The potential after a split -/

@[simp] theorem withClone_none (s : Finset String) (n : Node) : withClone s n none = s := by
  ext u
  simp

theorem card_withClone_le (s : Finset String) (n : Node) (x : Option Nat) :
    (withClone s n x).card ≤ s.card + 1 := by
  refine (Finset.card_union_le _ _).trans (Nat.add_le_add_left ?_ _)
  cases x <;> simp

/-- A node is joined to a class by an edge that leads to the class. -/
theorem exists_joined_iff (hv : v ∈ g.ids) (hs : ∀ u ∈ s, u ∈ g.ids) :
    (∃ u ∈ s, g.Joined v u) ↔ ∃ e ∈ g.edges, e.Attaches v s := by
  simp only [Edge.attaches_iff]
  constructor
  · rintro ⟨u, hu, -, -, e, he, hconn⟩
    exact ⟨e, he, u, hu, hconn⟩
  · rintro ⟨e, he, u, hu, hconn⟩
    exact ⟨u, hu, hv, hs u hu, e, he, hconn⟩

/-- A component without a neighbour of the second node gets no clone of it. -/
theorem SplitComponent.second_eq_none {reach : Finset String} {x y : Option Nat}
    (hcomp : SplitComponent g p q s reach x y r) (hq : q.id ∈ g.ids) (hs : ∀ u ∈ s, u ∈ g.ids)
    (hnot : ¬ ∃ u ∈ s, g.Joined q.id u) : y = none := by
  rw [exists_joined_iff hq hs, ← hcomp.second_iff] at hnot
  exact Option.not_isSome_iff_eq_none.mp hnot

/-- A component without a neighbour of the first node gets no clone of it, if nothing else is in
    reach. -/
theorem SplitComponent.first_eq_none {x y : Option Nat} (hcomp : SplitComponent g p q s s x y r)
    (hp : p.id ∈ g.ids) (hs : ∀ u ∈ s, u ∈ g.ids) (hnot : ¬ ∃ u ∈ s, g.Joined p.id u) :
    x = none := by
  rw [exists_joined_iff hp hs, ← hcomp.first_iff] at hnot
  exact Option.not_isSome_iff_eq_none.mp hnot

/-- The sizes of what the components become give the potential. -/
theorem PairSplit.potential_le_sum {reach : Finset String → Option Nat → Finset String}
    (hsplit : PairSplit g p q reach r) {cs : Finset (Finset String)}
    (hcs : ∀ s, s ∈ cs ↔ ((g.without p.id).without q.id).IsComponent s)
    {x y : Finset String → Option Nat}
    (hxy : ∀ s ∈ cs, SplitComponent g p q s (reach s (y s)) (x s) (y s) r) :
    r.potential ≤ ∑ s ∈ cs, weight (withClone (withClone s q (y s)) p (x s)).card := by
  have subset : r.classes ⊆ cs.image fun s => withClone (withClone s q (y s)) p (x s) := by
    intro t ht
    obtain ⟨s, x', y', hs, hcomp, rfl⟩ := hsplit.of_component t (hsplit.distinct.mem_classes.mp ht)
    refine Finset.mem_image.mpr ⟨s, (hcs s).mpr hs, ?_⟩
    -- both are the component of a node of `s`
    obtain ⟨u, hu⟩ := hs.nonempty
    have kept : ∀ a b, u ∈ withClone (withClone s q b) p a := fun a b =>
      mem_withClone.mpr (Or.inl (mem_withClone.mpr (Or.inl hu)))
    exact (hxy s ((hcs s).mpr hs)).component.eq_of_mem hcomp.component (kept _ _) (kept _ _)
  calc r.potential
      ≤ ∑ t ∈ cs.image fun s => withClone (withClone s q (y s)) p (x s), weight t.card :=
        Finset.sum_le_sum_of_subset subset
    _ ≤ ∑ s ∈ cs, weight (withClone (withClone s q (y s)) p (x s)).card :=
        Finset.sum_image_le_of_nonneg fun _ _ => Nat.zero_le _

/-- **The potential after a split.**  A component grows by its clones: by two at most, and by one or
    none if it lacks a neighbour of a node of the pair. -/
theorem PairSplit.exists_sizes (hsplit : PairSplit g p q (fun s y => withClone s q y) r)
    (h : g.Pivots p q) {cs ps qs : Finset (Finset String)}
    (hcs : cs = ((g.without p.id).without q.id).classes) (hps : ps = g.reaching cs p.id)
    (hqs : qs = g.reaching cs q.id) :
    ∃ size : Finset String → Nat, r.potential ≤ ∑ s ∈ cs, weight (size s) ∧
      ∀ s ∈ cs, size s ≤ s.card + 2 ∧ (s ∉ qs → size s ≤ s.card + 1) ∧
        (s ∉ ps → s ∉ qs → size s ≤ s.card) ∧ (g.Closed → s ∉ ps → size s ≤ s.card + 1) := by
  have hrest := (h.distinct.without p.id).without q.id
  have mem_cs : ∀ s, s ∈ cs ↔ ((g.without p.id).without q.id).IsComponent s := fun s => by
    rw [hcs, hrest.mem_classes]
  choose! x y hxy using hsplit.component
  refine ⟨fun s => (withClone (withClone s q (y s)) p (x s)).card,
    hsplit.potential_le_sum mem_cs fun s hs => hxy s ((mem_cs s).mp hs), fun s hs => ?_⟩
  have hcomp := hxy s ((mem_cs s).mp hs)
  have known : ∀ u ∈ s, u ∈ g.ids := fun u hu =>
    (mem_ids_without.mp (mem_ids_without.mp (((mem_cs s).mp hs).mem_ids hu)).1).1
  -- a component gets no clone of a node it is not joined to
  have no_second : s ∉ qs → y s = none := fun hnot =>
    hcomp.second_eq_none h.second_mem_ids known fun hjoined =>
      hnot (hqs ▸ mem_reaching.mpr ⟨hs, hjoined⟩)
  have no_first : s ∉ ps → SplitComponent g p q s s (x s) (y s) r → x s = none :=
    fun hnot hcomp => hcomp.first_eq_none h.first_mem_ids known fun hjoined =>
      hnot (hps ▸ mem_reaching.mpr ⟨hs, hjoined⟩)
  have one := card_withClone_le s q (y s)
  have two := card_withClone_le (withClone s q (y s)) p (x s)
  dsimp only
  refine ⟨by omega, fun hnot => ?_, fun hnot hnot' => ?_, fun hclosed hnot => ?_⟩
  · rw [no_second hnot, withClone_none]
    exact card_withClone_le s p (x s)
  · have hy := no_second hnot'
    have hx := no_first hnot (by rwa [hy, withClone_none, ← hy] at hcomp)
    rw [hy, hx, withClone_none, withClone_none]
  · -- with known ends only, the first node is not joined to a clone of the second one
    rw [no_first hnot (hcomp.of_not_captures (h.not_captures hclosed r)), withClone_none]
    exact one

/-! ### What a split costs -/

section Costs

variable {cs ps qs : Finset (Finset String)} {size : Finset String → Nat}

/-- The parts of a class weigh no more than the class with a node in it, even if each of them grows
    by a clone of that node; and they weigh less if there are two or more. -/
theorem sum_weight_le (hcs : ∀ s ∈ cs, 1 ≤ s.card) (hsize : ∀ s ∈ cs, size s ≤ s.card + 1) :
    ∑ s ∈ cs, weight (size s) ≤ weight (1 + ∑ s ∈ cs, s.card) ∧
      (2 ≤ cs.card → ∑ s ∈ cs, weight (size s) + 1 ≤ weight (1 + ∑ s ∈ cs, s.card)) := by
  have bound : ∑ s ∈ cs, weight (size s) + 2 * cs.card ≤ 2 * ∑ s ∈ cs, s.card := by
    apply sum_add_le
    intro s hs
    have := hcs s hs
    have := hsize s hs
    unfold weight
    omega
  -- the bound is good for two parts or more; one part weighs no more than the class
  rcases Nat.lt_or_ge cs.card 2 with hcard | hcard
  · refine ⟨?_, fun htwo => absurd htwo (by omega)⟩
    rcases Nat.lt_succ_iff_lt_or_eq.mp hcard with hcard | hcard
    · rw [Finset.card_eq_zero.mp (Nat.lt_one_iff.mp hcard), Finset.sum_empty]
      exact Nat.zero_le _
    · obtain ⟨s, rfl⟩ := Finset.card_eq_one.mp hcard
      have := hsize s (Finset.mem_singleton_self s)
      rw [Finset.sum_singleton, Finset.sum_singleton]
      unfold weight
      omega
  · unfold weight at bound ⊢
    omega

/-- Two clones for each part cost no more than the size of the class. -/
theorem sum_weight_add_card_le (hcs : ∀ s ∈ cs, 1 ≤ s.card)
    (hsize : ∀ s ∈ cs, size s ≤ s.card + 2) :
    ∑ s ∈ cs, weight (size s) + cs.card ≤ 2 * ∑ s ∈ cs, s.card := by
  have bound : ∑ s ∈ cs, weight (size s) + 1 * cs.card ≤ 2 * ∑ s ∈ cs, s.card := by
    apply sum_add_le
    intro s hs
    have := hcs s hs
    have := hsize s hs
    unfold weight
    omega
  rwa [Nat.one_mul] at bound

/-- A class with two nodes in it falls apart. -/
theorem sum_weight_lt (hcs : ∀ s ∈ cs, 1 ≤ s.card) (hsize : ∀ s ∈ cs, size s ≤ s.card + 2)
    (htwo : 2 ≤ cs.card) : ∑ s ∈ cs, weight (size s) < weight (2 + ∑ s ∈ cs, s.card) := by
  have bound := sum_weight_add_card_le hcs hsize
  unfold weight at bound ⊢
  omega

/-- Two classes with a node in each of them, one of which falls apart, if the parts of the second
    one may grow by two clones. -/
theorem sum_weight_add_sum_weight_le (hps : ∀ s ∈ ps, 1 ≤ s.card) (hqs : ∀ s ∈ qs, 1 ≤ s.card)
    (hsize_p : ∀ s ∈ ps, size s ≤ s.card + 1) (hsize_q : ∀ s ∈ qs, size s ≤ s.card + 2)
    (htwo : 2 ≤ ps.card ∨ 2 ≤ qs.card) :
    ∑ s ∈ ps, weight (size s) + ∑ s ∈ qs, weight (size s)
      ≤ weight (1 + ∑ s ∈ ps, s.card) + weight (1 + ∑ s ∈ qs, s.card) + 1 := by
  have bound_p := sum_weight_le hps hsize_p
  have bound_q := sum_weight_add_card_le hqs hsize_q
  -- without parts the second class costs nothing
  rcases Nat.eq_zero_or_pos qs.card with hcard | hcard
  · rw [Finset.card_eq_zero.mp hcard, Finset.sum_empty, Finset.sum_empty]
    omega
  · have : weight (1 + ∑ s ∈ qs, s.card) + 3 ≥ 2 * ∑ s ∈ qs, s.card := by
      unfold weight
      omega
    rcases htwo with htwo | htwo
    · have := bound_p.2 htwo
      omega
    · have := bound_p.1
      omega

/-- The same if the parts grow by one clone only. -/
theorem sum_weight_add_sum_weight_lt (hps : ∀ s ∈ ps, 1 ≤ s.card) (hqs : ∀ s ∈ qs, 1 ≤ s.card)
    (hsize_p : ∀ s ∈ ps, size s ≤ s.card + 1) (hsize_q : ∀ s ∈ qs, size s ≤ s.card + 1)
    (htwo : 2 ≤ ps.card ∨ 2 ≤ qs.card) :
    ∑ s ∈ ps, weight (size s) + ∑ s ∈ qs, weight (size s)
      < weight (1 + ∑ s ∈ ps, s.card) + weight (1 + ∑ s ∈ qs, s.card) := by
  have bound_p := sum_weight_le hps hsize_p
  have bound_q := sum_weight_le hqs hsize_q
  -- one of the two falls apart, and the other weighs no more than before
  rcases htwo with htwo | htwo
  · exact Nat.lt_of_lt_of_le (Nat.add_lt_add_right (bound_p.2 htwo) _)
      (Nat.add_le_add_left bound_q.1 _)
  · exact Nat.lt_of_le_of_lt (Nat.add_le_add_right bound_p.1 _)
      (Nat.add_lt_add_left (bound_q.2 htwo) _)

end Costs

theorem weight_mono {m n : Nat} (h : m ≤ n) : weight m ≤ weight n := by
  unfold weight
  omega

theorem without_comm (g : Graph) (u v : String) :
    (g.without u).without v = (g.without v).without u := by
  simp only [without, List.filter_filter, Bool.and_comm]

/-- One node of an articulation pair has neighbours in two classes of the rest. -/
theorem Step.two_le_card (h : Step g p q r) {cs : Finset (Finset String)}
    (hcs : cs = ((g.without p.id).without q.id).classes) :
    2 ≤ (g.reaching cs p.id).card ∨ 2 ≤ (g.reaching cs q.id).card := by
  have apart : ∀ s ∈ cs, p.id ∉ s ∧ q.id ∉ s := fun s hs =>
    h.pivots.not_mem_of_mem_classes (hcs ▸ hs)
  rcases h.cut with hcut | hcut
  · right
    have two := (h.pivots.distinct.without p.id).two_le_card_reaching hcut
    rwa [← hcs, reaching_without h.pivots.ne.symm fun s hs => (apart s hs).1] at two
  · left
    have two := (h.pivots.distinct.without q.id).two_le_card_reaching hcut
    rwa [without_comm, ← hcs, reaching_without h.pivots.ne fun s hs => (apart s hs).2] at two

/-- **The cost of a split.**  The potential falls, or, if an edge has an unknown end, it rises by no
    more than one. -/
theorem Step.potential_le (h : Step g p q r) :
    r.potential ≤ g.potential + 1 ∧ (g.Closed → r.potential < g.potential) := by
  have hrest := (h.pivots.distinct.without p.id).without q.id
  obtain ⟨cs, hcs⟩ : ∃ cs, cs = ((g.without p.id).without q.id).classes := ⟨_, rfl⟩
  obtain ⟨ps, hps⟩ : ∃ ps, ps = g.reaching cs p.id := ⟨_, rfl⟩
  obtain ⟨qs, hqs⟩ : ∃ qs, qs = g.reaching cs q.id := ⟨_, rfl⟩
  obtain ⟨size, hsum, hsize⟩ := h.split.exists_sizes h.pivots hcs hps hqs
  have two := h.two_le_card hcs
  rw [← hps, ← hqs] at two
  have subset_p : ps ⊆ cs := hps ▸ reaching_subset g cs p.id
  have subset_q : qs ⊆ cs := hqs ▸ reaching_subset g cs q.id
  have subset := Finset.union_subset subset_p subset_q
  have one_le : ∀ s ∈ cs, 1 ≤ s.card := fun s hs => hrest.one_le_card_of_mem_classes (hcs ▸ hs)
  have others : ∑ s ∈ cs \ (ps ∪ qs), weight (size s) ≤ ∑ s ∈ cs \ (ps ∪ qs), weight s.card := by
    refine Finset.sum_le_sum fun s hs => weight_mono ?_
    obtain ⟨hs, hnot⟩ := Finset.mem_sdiff.mp hs
    rw [Finset.mem_union, not_or] at hnot
    exact (hsize s hs).2.2.1 hnot.1 hnot.2
  rw [← Finset.sum_sdiff subset] at hsum
  rcases h.pivots.potential_cases hcs hps hqs with hbefore | ⟨disjoint, hbefore⟩
  · -- the pair lies in one class, which falls apart
    have card_p := Finset.card_le_card (Finset.subset_union_left : ps ⊆ ps ∪ qs)
    have card_q := Finset.card_le_card (Finset.subset_union_right : qs ⊆ ps ∪ qs)
    have drop := sum_weight_lt (fun s hs => one_le s (subset hs))
      (fun s hs => (hsize s (subset hs)).1) (by omega)
    exact ⟨by omega, fun _ => by omega⟩
  · -- each node has its own class, and one of the two falls apart
    rw [Finset.sum_union disjoint] at hsum
    have one_p : ∀ s ∈ ps, 1 ≤ s.card := fun s hs => one_le s (subset_p hs)
    have one_q : ∀ s ∈ qs, 1 ≤ s.card := fun s hs => one_le s (subset_q hs)
    have size_p : ∀ s ∈ ps, size s ≤ s.card + 1 := fun s hs =>
      (hsize s (subset_p hs)).2.1 (Finset.disjoint_left.mp disjoint hs)
    constructor
    · have rise := sum_weight_add_sum_weight_le one_p one_q size_p
        (fun s hs => (hsize s (subset_q hs)).1) two
      omega
    · intro hclosed
      have drop := sum_weight_add_sum_weight_lt one_p one_q size_p (fun s hs =>
        (hsize s (subset_q hs)).2.2.2 hclosed (Finset.disjoint_right.mp disjoint hs)) two
      omega

end Graph

end Drafting
