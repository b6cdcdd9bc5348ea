import Drafting.Proofs.Graph.Components

namespace Drafting

open Relation

/-!
# How classes come together at a node

The classes of a graph are the sets of names of its components.  Putting a node back joins the
classes that it has neighbours in, and leaves the others alone:

* `Graph.classes` — the classes of a graph;
* `Graph.reaching` — those that a node has a neighbour in;
* `Graph.Distinct.classes_eq_insert` — the classes with a node, from those without it;
* `Graph.Distinct.two_le_card_reaching` — a cut vertex has neighbours in two of them.
-/

namespace Graph

variable {g : Graph} {u v w : String} {s t : Finset String}

/-- The classes of connected nodes. -/
def classes (g : Graph) : Finset (Finset String) := (g.components.map idSet).toFinset

/-- The classes among `cs` in which `v` has a neighbour. -/
def reaching (g : Graph) (cs : Finset (Finset String)) (v : String) : Finset (Finset String) :=
  cs.filter fun s => ∃ u ∈ s, g.Joined v u

theorem mem_reaching {cs : Finset (Finset String)} :
    s ∈ g.reaching cs v ↔ s ∈ cs ∧ ∃ u ∈ s, g.Joined v u := by
  rw [reaching, Finset.mem_filter]

theorem reaching_subset (g : Graph) (cs : Finset (Finset String)) (v : String) :
    g.reaching cs v ⊆ cs := Finset.filter_subset _ _

/-- Classes that are taken out are not reached any more, and the others are reached as before. -/
theorem reaching_sdiff (g : Graph) (cs ds : Finset (Finset String)) (v : String) :
    g.reaching (cs \ ds) v = g.reaching cs v \ ds := by
  ext t
  rw [mem_reaching, Finset.mem_sdiff, Finset.mem_sdiff, mem_reaching]
  exact and_right_comm

theorem reaching_insert_of_joined {cs : Finset (Finset String)} (h : ∃ u ∈ s, g.Joined v u) :
    g.reaching (insert s cs) v = insert s (g.reaching cs v) := by
  rw [reaching, Finset.filter_insert, if_pos h]
  rfl

theorem reaching_insert_of_not_joined {cs : Finset (Finset String)}
    (h : ¬ ∃ u ∈ s, g.Joined v u) : g.reaching (insert s cs) v = g.reaching cs v := by
  rw [reaching, Finset.filter_insert, if_neg h]
  rfl

theorem Distinct.mem_classes (h : g.Distinct) : s ∈ g.classes ↔ g.IsComponent s := by
  rw [classes, List.mem_toFinset, List.mem_map, h.isComponent_iff]

/-- A path that starts away from `v` avoids it, or leads to one of its neighbours. -/
theorem Connected.avoid (h : g.Connected u w) (hu : u ≠ v) :
    (w ≠ v ∧ (g.without v).Connected u w) ∨
      ∃ x, g.Joined x v ∧ (g.without v).Connected u x := by
  rcases path_prefix h hu with ⟨hw, path⟩ | ⟨x, step, -, path⟩
  · exact Or.inl ⟨hw, connected_without_iff.mpr path⟩
  · exact Or.inr ⟨x, step, connected_without_iff.mpr path⟩

namespace Distinct

variable (h : g.Distinct)
include h

theorem exists_mem_classes (hu : u ∈ g.ids) : ∃ s ∈ g.classes, u ∈ s := by
  obtain ⟨s, hs, hu⟩ := h.exists_isComponent hu
  exact ⟨s, h.mem_classes.mpr hs, hu⟩

theorem eq_of_mem_classes (hs : s ∈ g.classes) (ht : t ∈ g.classes) (hus : u ∈ s) (hut : u ∈ t) :
    s = t :=
  (h.mem_classes.mp hs).eq_of_mem (h.mem_classes.mp ht) hus hut

theorem pairwiseDisjoint_classes : (g.classes : Set (Finset String)).PairwiseDisjoint id := by
  intro s hs t ht hne
  rw [Function.onFun, id, id, Finset.disjoint_left]
  exact fun u hus hut => hne (h.eq_of_mem_classes hs ht hus hut)

theorem one_le_card_of_mem_classes (hs : s ∈ g.classes) : 1 ≤ s.card :=
  Finset.card_pos.mpr (h.mem_classes.mp hs).nonempty

theorem not_mem_of_mem_classes_without (hs : s ∈ (g.without v).classes) : v ∉ s := by
  intro hv
  have := ((h.without v).mem_classes.mp hs).mem_ids hv
  exact (mem_ids_without.mp this).2 rfl

/-- The class of a node consists of the node and the classes it has a neighbour in. -/
theorem eq_insert_of_mem (ht : g.IsComponent t) (hv : v ∈ t) :
    t = insert v ((g.reaching (g.without v).classes v).biUnion id) := by
  ext w
  rw [ht.mem_iff hv, Finset.mem_insert, Finset.mem_biUnion]
  constructor
  · intro path
    by_cases hw : w = v
    · exact Or.inl hw
    · -- the path from `w` to `v` comes to a neighbour of `v` first
      rcases path.symm.avoid hw with ⟨hne, -⟩ | ⟨x, hx, path⟩
      · exact absurd rfl hne
      · have hmem : w ∈ (g.without v).ids :=
          mem_ids_without.mpr ⟨path.of_without.symm.mem_ids hx.1, hw⟩
        obtain ⟨s, hs, hws⟩ := (h.without v).exists_mem_classes hmem
        have hxs := (((h.without v).mem_classes.mp hs).mem_iff hws).mpr path
        exact Or.inr ⟨s, mem_reaching.mpr ⟨hs, x, hxs, symm hx⟩, hws⟩
  · rintro (rfl | ⟨s, hs, hws⟩)
    · exact .refl
    · obtain ⟨hs, u, hus, hvu⟩ := mem_reaching.mp hs
      have path := (((h.without v).mem_classes.mp hs).mem_iff hus).mp hws
      exact Connected.trans (.single hvu) path.of_without

omit h in
/-- A class without the node is a class after its removal, and none of those it is joined to. -/
theorem isComponent_iff_of_not_mem (hv : v ∉ t) :
    g.IsComponent t ↔ (g.without v).IsComponent t ∧ ∀ u ∈ t, ¬ g.Joined v u := by
  constructor
  · intro ht
    have apart : ∀ u ∈ t, ¬ g.Joined v u := fun u hu hvu =>
      hv ((ht.mem_iff hu).mpr (.single (symm hvu)))
    refine ⟨?_, apart⟩
    obtain ⟨u, hu⟩ := ht.nonempty
    have huv : u ≠ v := fun heq => hv (heq ▸ hu)
    refine ⟨u, mem_ids_without.mpr ⟨ht.mem_ids hu, huv⟩, fun w => ?_⟩
    rw [ht.mem_iff hu]
    constructor
    · intro path
      -- a path that comes to `v` would lead to a neighbour of it in `t`
      rcases path.avoid huv with ⟨-, path⟩ | ⟨x, hx, path⟩
      · exact path
      · exact absurd (symm hx) (apart x ((ht.mem_iff hu).mpr path.of_without))
    · exact Connected.of_without
  · rintro ⟨ht, apart⟩
    obtain ⟨u, hu⟩ := ht.nonempty
    refine ⟨u, (mem_ids_without.mp (ht.mem_ids hu)).1, fun w => ?_⟩
    constructor
    · exact fun hw => ((ht.mem_iff hu).mp hw).of_without
    · intro path
      -- no step leaves `t`, because none leads to `v`
      refine mem_of_path (S := fun x => x ∈ t) (fun x y hx hxy => ?_) path hu
      have hxv : x ≠ v := fun heq => hv (heq ▸ hx)
      have hyv : y ≠ v := fun heq => apart x hx (heq ▸ symm hxy)
      refine (ht.mem_iff hx).mpr (.single ?_)
      rw [joined_without]
      exact ⟨hxy, hxv, hyv⟩

/-- **Putting a node back.**  The classes that it has a neighbour in become one. -/
theorem classes_eq_insert (hv : v ∈ g.ids) :
    g.classes = insert (insert v ((g.reaching (g.without v).classes v).biUnion id))
      ((g.without v).classes \ g.reaching (g.without v).classes v) := by
  ext t
  rw [h.mem_classes, Finset.mem_insert, Finset.mem_sdiff, mem_reaching, (h.without v).mem_classes]
  by_cases hvt : v ∈ t
  · have no_class : ¬ (g.without v).IsComponent t := fun ht =>
      h.not_mem_of_mem_classes_without ((h.without v).mem_classes.mpr ht) hvt
    constructor
    · exact fun ht => Or.inl (h.eq_insert_of_mem ht hvt)
    · rintro (rfl | ⟨ht, -⟩)
      · obtain ⟨s, hs, hvs⟩ := h.exists_isComponent hv
        exact h.eq_insert_of_mem hs hvs ▸ hs
      · exact absurd ht no_class
  · rw [isComponent_iff_of_not_mem hvt]
    constructor
    · rintro ⟨ht, apart⟩
      refine Or.inr ⟨ht, ?_⟩
      rintro ⟨-, u, hu, hvu⟩
      exact apart u hu hvu
    · rintro (rfl | ⟨ht, hnot⟩)
      · exact absurd (Finset.mem_insert_self _ _) hvt
      · exact ⟨ht, fun u hu hvu => hnot ⟨ht, u, hu, hvu⟩⟩

/-- A cut vertex has neighbours in two classes. -/
theorem two_le_card_reaching (hcut : g.IsCutVertex v) :
    2 ≤ (g.reaching (g.without v).classes v).card := by
  obtain ⟨u, w, hu, hw, path, hnot⟩ := isCutVertex_iff.mp hcut
  rcases path_cases path hu hw with avoided | ⟨x, y, hxv, hx, hvy, hy, hux, hyw⟩
  · exact absurd avoided hnot
  · obtain ⟨s, hs, hxs⟩ := (h.without v).exists_mem_classes (mem_ids_without.mpr ⟨hxv.1, hx⟩)
    obtain ⟨t, ht, hyt⟩ := (h.without v).exists_mem_classes (mem_ids_without.mpr ⟨hvy.2.1, hy⟩)
    refine Finset.one_lt_card.mpr ⟨s, mem_reaching.mpr ⟨hs, x, hxs, symm hxv⟩, t,
      mem_reaching.mpr ⟨ht, y, hyt, hvy⟩, ?_⟩
    rintro rfl
    -- a common class would join the two neighbours, and so the two nodes
    have between := (((h.without v).mem_classes.mp hs).mem_iff hxs).mp hyt
    exact hnot (hux.trans ((connected_without_iff.mp between).trans hyw))

end Distinct

end Graph

end Drafting
