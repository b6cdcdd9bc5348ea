import Drafting.Proofs.Graph.Survival

namespace Drafting

/-!
# The relation of a pair

An edge that joins the two nodes of a pair leads to no component, and so the cuts drop it.  Only a
link can stand for it: a component gets one if both nodes are joined to it and it still has a cut
vertex with their clones.  Where every component holds together without that, the relation is lost.

* `Graph.JoinsBoth`, `Graph.NeedsLink` — a component that both nodes are joined to, and one that
  still has a cut vertex with its clones of them;
* `Graph.PairSplit.exists_link` — such a component gets a link;
* `Graph.PairSplit.needsLink` — an edge between clones of the two nodes is the link of a component
  that needs it;
* `Graph.splitAtPair_relation` — the clones of a pair are joined where a component needs it.
-/

namespace Graph

variable {g r : Graph} {p q : Node} {s : Finset String} {x y : Option Nat} {k i k' i' : Nat}
  {e l : Edge}

/-- Both nodes of a pair are joined to the component `s` of the graph without them. -/
structure JoinsBoth (g : Graph) (p q : Node) (s : Finset String) : Prop where
  component : ((g.without p.id).without q.id).IsComponent s
  first : ∃ e ∈ g.edges, e.Attaches p.id s
  second : ∃ e ∈ g.edges, e.Attaches q.id s

/-- The names of a component and of its clones of both nodes, whose numbers are `k` and `i`. -/
def withClones (s : Finset String) (p q : Node) (k i : Nat) : Finset String :=
  withClone (withClone s q (some i)) p (some k)

/-- A component still has a cut vertex with its clones of both nodes, whose numbers are `k` and `i`.
    With the clones come the edges of the two nodes that lead to it. -/
def NeedsLink (g : Graph) (p q : Node) (s : Finset String) (k i : Nat) : Prop :=
  ∃ v, (g.reattached p q s (withClone s q (some i)) (some k) (some i)).IsCutVertex v

/-- Both clones are among the names. -/
theorem clones_mem_withClones (s : Finset String) (p q : Node) (k i : Nat) :
    (p.clone k).id ∈ withClones s p q k i ∧ (q.clone i).id ∈ withClones s p q k i := by
  simp [withClones]

theorem linkKind_eq (he : g.edges.find? (·.connects p.id q.id) = some e) :
    g.linkKind p.id q.id = e.kind := by
  simp [linkKind, he]

/-- **Clones are made.**  A component that both nodes are joined to has a clone of each. -/
theorem SplitComponent.exists_numbers (hjoins : g.JoinsBoth p q s)
    (hcomp : SplitComponent g p q s (withClone s q y) x y r) : ∃ k i, x = some k ∧ y = some i := by
  have within : ∀ v ∈ s, v ∈ withClone s q y := fun v hv => mem_withClone.mpr (.inl hv)
  obtain ⟨e, he, hattaches⟩ := hjoins.first
  have reached : e.Attaches p.id (withClone s q y) :=
    hattaches.imp (And.imp_right (within _)) (And.imp_right (within _))
  obtain ⟨k, hk⟩ := Option.isSome_iff_exists.mp (hcomp.first_iff.mpr ⟨e, he, reached⟩)
  obtain ⟨i, hi⟩ := Option.isSome_iff_exists.mp (hcomp.second_iff.mpr hjoins.second)
  exact ⟨k, i, hk, hi⟩

/-- **Links are made.**  A component that both nodes are joined to comes out with a clone of each,
    and if it needs a link it has one. -/
theorem PairSplit.exists_link (hsplit : PairSplit g p q (fun s y => withClone s q y) r)
    (hjoins : g.JoinsBoth p q s) :
    ∃ k i, r.IsComponent (withClones s p q k i) ∧
      (g.NeedsLink p q s k i → ∃ l ∈ r.edges, l.kind = g.linkKind p.id q.id ∧
        l.connects (cloneId p.id k) (cloneId q.id i) = true) := by
  obtain ⟨x, y, hcomp⟩ := hsplit.component s hjoins.component
  obtain ⟨k, i, rfl, rfl⟩ := hcomp.exists_numbers hjoins
  refine ⟨k, i, hcomp.component, fun hneeds => ?_⟩
  refine ⟨⟨linkId q.id k, g.linkKind p.id q.id, (p.clone k).id, (q.clone i).id⟩, ?_, rfl, ?_⟩
  · refine (List.mem_filter.mp (hcomp.edges.mem_iff.mpr (List.mem_append_right _ ?_))).1
    exact mem_pairLinks.mpr ⟨k, i, rfl, rfl, hneeds, rfl⟩
  · exact Edge.connects_iff.mpr (.inl ⟨rfl, rfl⟩)

section Split

variable (h : g.Pivots p q)
include h

/-- The numbers of its clones can be read off a component. -/
theorem Pivots.numbers_eq (hs : ((g.without p.id).without q.id).IsComponent s)
    (hfirst : (p.clone k).id ∈ withClone (withClone s q y) p x)
    (hsecond : (q.clone i).id ∈ withClone (withClone s q y) p x) : x = some k ∧ y = some i := by
  simp only [mem_withClone] at hfirst hsecond
  constructor
  · rcases hfirst with (hmem | ⟨j, -, hj⟩) | ⟨j, rfl, hj⟩
    · exact absurd rfl ((h.ne_clone_of_component hs hmem).2.2.1 k)
    · exact absurd hj.symm (h.clone_ne k j)
    · rw [(cloneId_inj.mp hj).2]
  · rcases hsecond with (hmem | ⟨j, rfl, hj⟩) | ⟨j, -, hj⟩
    · exact absurd rfl ((h.ne_clone_of_component hs hmem).2.2.2 i)
    · rw [(cloneId_inj.mp hj).2]
    · exact absurd hj (h.clone_ne j i)

/-- A component comes out once, and so its clones have one number each. -/
theorem Pivots.numbers_unique (hs : ((g.without p.id).without q.id).IsComponent s)
    (hcomp : r.IsComponent (withClones s p q k i))
    (hcomp' : r.IsComponent (withClones s p q k' i')) : k = k' ∧ i = i' := by
  -- both have the members of the component, and so they are the same
  obtain ⟨v, hv⟩ := hs.nonempty
  have member : ∀ k i, v ∈ withClones s p q k i := fun k i =>
    mem_withClone.mpr (.inl (mem_withClone.mpr (.inl hv)))
  have same := hcomp.eq_of_mem hcomp' (member k i) (member k' i')
  have clones := same ▸ clones_mem_withClones s p q k i
  obtain ⟨hk, hi⟩ := h.numbers_eq hs clones.1 clones.2
  exact ⟨(Option.some.inj hk).symm, (Option.some.inj hi).symm⟩

/-- The edges that a component had lead to its members, unless one of them is captured. -/
theorem Pivots.not_connects_of_mem_reattached
    (hs : ((g.without p.id).without q.id).IsComponent s)
    (hattaches : ∀ e ∈ g.edges, e.Attaches p.id (withClone s q (some i)) → e.Attaches p.id s)
    (hl : l ∈ (g.reattached p q s (withClone s q (some i)) (some k) (some i)).edges) :
    l.connects (p.clone k).id (q.clone i).id = false := by
  obtain ⟨e, he, rfl⟩ := List.mem_map.mp hl
  obtain ⟨he, hbelongs⟩ := List.mem_filter.mp he
  -- one end of the edge is a member, and it keeps its name
  have member : e.source ∈ s ∨ e.target ∈ s := by
    rcases of_decide_eq_true hbelongs with hin | hatt | hatt
    · exact .inl hin.1
    · exact hatt.symm.imp And.right And.right
    · exact (hattaches e he hatt).symm.imp And.right And.right
  have fixed : ∀ v ∈ s, toClones p q (some k) (some i) v = v := by
    intro v hv
    obtain ⟨hp, hq, -⟩ := h.ne_clone_of_component hs hv
    rw [toClones_of_ne_first hp, Function.update_of_ne hq, id]
  rw [← Bool.not_eq_true, Edge.connects_iff]
  simp only [Edge.rename]
  rcases member with hmem | hmem
  · obtain ⟨-, -, hp, hq⟩ := h.ne_clone_of_component hs hmem
    rw [fixed _ hmem]
    rintro (⟨heq, -⟩ | ⟨heq, -⟩)
    · exact hp k heq
    · exact hq i heq
  · obtain ⟨-, -, hp, hq⟩ := h.ne_clone_of_component hs hmem
    rw [fixed _ hmem]
    rintro (⟨-, heq⟩ | ⟨-, heq⟩)
    · exact hq i heq
    · exact hp k heq

/-- **Links alone join clones.**  If no edge is captured, an edge between clones of the two nodes is
    the link of a component that needs it. -/
theorem PairSplit.needsLink (hsplit : PairSplit g p q (fun s y => withClone s q y) r)
    (hcaptures : ¬ g.Captures p.id q.id r) (hl : l ∈ r.edges)
    (hconn : l.connects (p.clone k).id (q.clone i).id = true) :
    l.kind = g.linkKind p.id q.id ∧
      ∃ s, g.JoinsBoth p q s ∧ r.IsComponent (withClones s p q k i) ∧ g.NeedsLink p q s k i := by
  -- both clones are nodes, and they belong to the same component
  have ends : (p.clone k).id ∈ r.ids ∧ (q.clone i).id ∈ r.ids := by
    have closed := hsplit.closed l hl
    rcases Edge.connects_iff.mp hconn with ⟨hs, ht⟩ | ⟨hs, ht⟩
    · exact ⟨hs ▸ closed.1, ht ▸ closed.2⟩
    · exact ⟨ht ▸ closed.2, hs ▸ closed.1⟩
  obtain ⟨s, y, hs, hcomp⟩ := hsplit.of_first_clone_mem h ends.1
  have hfirst : (p.clone k).id ∈ withClone (withClone s q y) p (some k) := by simp
  have hsecond : (q.clone i).id ∈ withClone (withClone s q y) p (some k) :=
    (hcomp.component.mem_iff hfirst).mpr (.single ⟨ends.1, ends.2, l, hl, hconn⟩)
  obtain ⟨-, rfl⟩ := h.numbers_eq hs hfirst hsecond
  have hattaches : ∀ e ∈ g.edges, e.Attaches p.id (withClone s q (some i)) → e.Attaches p.id s := by
    intro e he
    refine (attaches_withClone_iff hcaptures (fun j hj => ?_) he).mp
    obtain rfl := Option.some.inj hj
    exact ends.2
  -- the edge is among those of the component, and so it is the link
  have hinside : l ∈ (r.restrict (withClone (withClone s q (some i)) p (some k))).edges := by
    refine mem_edges_restrict.mpr ⟨hl, ?_⟩
    rcases Edge.connects_iff.mp hconn with ⟨hsource, htarget⟩ | ⟨hsource, htarget⟩
    · exact ⟨hsource ▸ hfirst, htarget ▸ hsecond⟩
    · exact ⟨hsource ▸ hsecond, htarget ▸ hfirst⟩
  rcases List.mem_append.mp (hcomp.edges.mem_iff.mp hinside) with hold | hlink
  · rw [h.not_connects_of_mem_reattached hs hattaches hold] at hconn
    cases hconn
  · obtain ⟨_, _, hk, -, hcut, rfl⟩ := mem_pairLinks.mp hlink
    obtain rfl := Option.some.inj hk
    obtain ⟨e, he, hatt⟩ := hcomp.first_iff.mp rfl
    have joins : g.JoinsBoth p q s := ⟨hs, ⟨e, he, hattaches e he hatt⟩, hcomp.second_iff.mp rfl⟩
    exact ⟨rfl, s, joins, hcomp.component, hcut⟩

end Split

/-- **The relation of a pair.**  Let an edge join the two nodes of an articulation pair.  Each
    component of the graph without the two that both were joined to is a component after the split,
    with a clone of each.  If it still has a cut vertex with these clones, there is an edge between
    them, of the same kind as the edge between the two nodes.  And unless an edge is captured, all
    edges between clones of the two are of this kind and have come about like that. -/
theorem splitAtPair_relation (g : Graph) (p q : Node) (e : Edge) (hg : g.Distinct)
    (hapart : g.NamesApart) (hp : p ∈ g.nodes) (hq : q ∈ g.nodes)
    (hpair : (p.id, q.id) ∈ g.articulationPairs)
    (he : g.edges.find? (·.connects p.id q.id) = some e) :
    ∃ r, g.splitAtPair p.id q.id = .ok r ∧
      (∀ s, g.JoinsBoth p q s → ∃ k i, r.IsComponent (withClones s p q k i) ∧
        (g.NeedsLink p q s k i → ∃ l ∈ r.edges, l.kind = e.kind ∧
          l.connects (cloneId p.id k) (cloneId q.id i) = true)) ∧
      (¬ g.Captures p.id q.id r → ∀ l ∈ r.edges, ∀ k i,
        l.connects (cloneId p.id k) (cloneId q.id i) = true → l.kind = e.kind ∧
          ∃ s, g.JoinsBoth p q s ∧ r.IsComponent (withClones s p q k i) ∧
            g.NeedsLink p q s k i) := by
  have hne := (mem_ids_of_mem_articulationPairs hpair).2.2
  have pivots : g.Pivots p q := ⟨hg, hapart, hp, hq, hne⟩
  obtain ⟨r, hr, hsplit⟩ := pivots.splitAtPair_spec
  rw [← linkKind_eq he]
  refine ⟨r, hr, fun s hjoins => hsplit.exists_link hjoins, ?_⟩
  exact fun hcaptures l hl k i hconn => hsplit.needsLink pivots hcaptures hl hconn

/-! ### A link, and a relation that is lost -/

/-- The relation of `a` and `c` survives the split of the two triangles. -/
theorem splitAtPair_relation_crossedSquare :
    crossedSquare.Distinct ∧ crossedSquare.NamesApart ∧
      ("a", "c") ∈ crossedSquare.articulationPairs ∧
      crossedSquare.edges.find? (·.connects "a" "c") = some ⟨"ac", .distance, "a", "c"⟩ ∧
      ∃ r, crossedSquare.splitAtPair "a" "c" = .ok r ∧
        (∃ s, crossedSquare.JoinsBoth ⟨"a", .point⟩ ⟨"c", .point⟩ s ∧
          crossedSquare.NeedsLink ⟨"a", .point⟩ ⟨"c", .point⟩ s 0 0) ∧
        ∃ l ∈ r.edges, l.kind = .distance ∧
          l.connects (cloneId "a" 0) (cloneId "c" 0) = true := by
  have distinct : crossedSquare.Distinct := by decide
  have apart : crossedSquare.NamesApart := namesApart_of_underscore_not_mem (by decide)
  have closed : crossedSquare.Closed := by unfold Closed; decide
  have pair : ("a", "c") ∈ crossedSquare.articulationPairs := by
    have pairs : crossedSquare.articulationPairs = [("a", "c")] := by cbv
    rw [pairs]
    exact List.mem_singleton_self _
  have pivots : crossedSquare.Pivots ⟨"a", .point⟩ ⟨"c", .point⟩ :=
    ⟨distinct, apart, by decide, by decide, by decide⟩
  obtain ⟨r, hr, linked, links⟩ := splitAtPair_relation crossedSquare ⟨"a", .point⟩ ⟨"c", .point⟩
    ⟨"ac", .distance, "a", "c"⟩ distinct apart (by decide) (by decide) pair (by decide)
  -- one of the links is an edge of the result, and it belongs to a component that needs it
  have link : ⟨"c_virtual_edge_0", .distance, "a_0", "c_0"⟩ ∈ r.edges := by
    have split : crossedSquare.splitAtPair "a" "c" = .ok crossedSquareSplit := by cbv
    obtain rfl := Except.ok.inj (split.symm.trans hr)
    decide
  obtain ⟨-, s, joins, component, needs⟩ :=
    links (pivots.not_captures closed r) _ link 0 0 (by cbv)
  obtain ⟨k, i, component', made⟩ := linked s joins
  obtain ⟨rfl, rfl⟩ := pivots.numbers_unique joins.component component component'
  exact ⟨distinct, apart, pair, by decide, r, hr, ⟨s, joins, needs⟩, made needs⟩

/-- Two tetrahedra with a common side, from `a` to `b`. -/
def twoTetrahedra : Graph where
  nodes := [⟨"a", .point⟩, ⟨"b", .point⟩, ⟨"c", .point⟩, ⟨"d", .point⟩, ⟨"e", .point⟩,
    ⟨"f", .point⟩]
  edges := [⟨"ab", .distance, "a", "b"⟩, ⟨"ac", .distance, "a", "c"⟩, ⟨"ad", .distance, "a", "d"⟩,
    ⟨"bc", .distance, "b", "c"⟩, ⟨"bd", .distance, "b", "d"⟩, ⟨"cd", .distance, "c", "d"⟩,
    ⟨"ae", .distance, "a", "e"⟩, ⟨"af", .distance, "a", "f"⟩, ⟨"be", .distance, "b", "e"⟩,
    ⟨"bf", .distance, "b", "f"⟩, ⟨"ef", .distance, "e", "f"⟩]

/-- Neither half has a cut vertex, and so there is no link. -/
def twoTetrahedraSplit : Graph where
  nodes := [⟨"c", .point⟩, ⟨"d", .point⟩, ⟨"b_0", .point⟩, ⟨"a_0", .point⟩, ⟨"e", .point⟩,
    ⟨"f", .point⟩, ⟨"b_1", .point⟩, ⟨"a_1", .point⟩]
  edges := [⟨"cd", .distance, "c", "d"⟩, ⟨"bc", .distance, "b_0", "c"⟩,
    ⟨"bd", .distance, "b_0", "d"⟩, ⟨"ac", .distance, "a_0", "c"⟩, ⟨"ad", .distance, "a_0", "d"⟩,
    ⟨"ef", .distance, "e", "f"⟩, ⟨"be", .distance, "b_1", "e"⟩, ⟨"bf", .distance, "b_1", "f"⟩,
    ⟨"ae", .distance, "a_1", "e"⟩, ⟨"af", .distance, "a_1", "f"⟩]

/-- No edge is left between clones of `a` and `b`. -/
theorem not_relation_twoTetrahedra :
    twoTetrahedra.Distinct ∧ twoTetrahedra.NamesApart ∧
      ("a", "b") ∈ twoTetrahedra.articulationPairs ∧
      twoTetrahedra.edges.find? (·.connects "a" "b") = some ⟨"ab", .distance, "a", "b"⟩ ∧
      ¬ ∃ r, twoTetrahedra.splitAtPair "a" "b" = .ok r ∧ ∃ l ∈ r.edges, l.kind = .distance ∧
        ∃ k i, l.connects (cloneId "a" k) (cloneId "b" i) = true := by
  have pairs : twoTetrahedra.articulationPairs = [("a", "b")] := by cbv
  refine ⟨by decide, namesApart_of_underscore_not_mem (by decide),
    pairs ▸ List.mem_singleton_self _, by decide, ?_⟩
  rintro ⟨r, hr, l, hl, -, k, i, hconn⟩
  have split : twoTetrahedra.splitAtPair "a" "b" = .ok twoTetrahedraSplit := by cbv
  obtain rfl := Except.ok.inj (split.symm.trans hr)
  -- clones begin like their originals, and no edge of the result joins two such names
  have unjoined : ∀ l ∈ twoTetrahedraSplit.edges,
      ¬ ("a".toList <+: l.source.toList ∧ "b".toList <+: l.target.toList) ∧
        ¬ ("b".toList <+: l.source.toList ∧ "a".toList <+: l.target.toList) := by decide
  have begins : ∀ u k, u.toList <+: (cloneId u k).toList := fun u k =>
    Descends.toList_prefix (descends_cloneId u k)
  rcases Edge.connects_iff.mp hconn with ⟨hsource, htarget⟩ | ⟨hsource, htarget⟩
  · exact (unjoined l hl).1 ⟨hsource ▸ begins "a" k, htarget ▸ begins "b" i⟩
  · exact (unjoined l hl).2 ⟨hsource ▸ begins "b" i, htarget ▸ begins "a" k⟩

end Graph

end Drafting
