import Drafting.Proofs.Graph.Lineage

namespace Drafting

/-!
# The names of edges

A split keeps the names of the edges that it keeps, and it names a link after the second node of the
pair and the number of its component.  Nothing looks at the names that are there already: that names
stay unique is due to the names of the graph that is decomposed.

* `Graph.LinksApart` — no edge is named like a link;
* `Graph.SplitComponent.of_mem_edges` — an edge of the result has an old name, or that of a link;
* `Graph.PairSplit.edgesDistinct` — one split;
* `Graph.splitTimes_distinct` — any number of splits.
-/

namespace Edge

variable {e : Edge} {p q : Node} {s t : Finset String} {v : String}

/-- An edge of a component has an end in it, -/
theorem BelongsTo.source_or_target_mem (h : e.BelongsTo p q s t) (hst : s ⊆ t) :
    e.source ∈ t ∨ e.target ∈ t := by
  rcases h with ⟨hsource, -⟩ | hatt | hatt
  · exact .inl (hst hsource)
  · exact hatt.symm.imp (fun h => hst h.2) fun h => hst h.2
  · exact hatt.symm.imp And.right And.right

/-- and its ends are members, or nodes of the pair. -/
theorem BelongsTo.end_mem (h : e.BelongsTo p q s t) (hst : s ⊆ t)
    (hv : v = e.source ∨ v = e.target) : v ∈ t ∨ v = p.id ∨ v = q.id := by
  rcases h with ⟨hsource, htarget⟩ | hatt | hatt
  · rcases hv with rfl | rfl
    · exact .inl (hst hsource)
    · exact .inl (hst htarget)
  · rcases hv with rfl | rfl
    · exact hatt.source_mem.symm.imp (@hst _) .inr
    · exact hatt.target_mem.symm.imp (@hst _) .inr
  · rcases hv with rfl | rfl
    · exact hatt.source_mem.symm.imp_right .inl
    · exact hatt.target_mem.symm.imp_right .inl

end Edge

namespace Graph

variable {g r : Graph} {p q : Node} {e e' : Edge} {s s' : Finset String} {x y x' y' : Option Nat}
  {u v : String} {i j k : Nat}

/-- The names of the edges. -/
def edgeIds (g : Graph) : List String := g.edges.map Edge.id

/-- No two edges have the same name. -/
def EdgesDistinct (g : Graph) : Prop := g.edgeIds.Nodup

instance (g : Graph) : Decidable g.EdgesDistinct := inferInstanceAs (Decidable g.edgeIds.Nodup)

/-- No edge is named like a link of a node, or of a clone of a node, and so on. -/
def LinksApart (g : Graph) : Prop :=
  ∀ e ∈ g.edges, ∀ v ∈ g.ids, ∀ u, Descends v u → ∀ i, e.id ≠ linkId u i

/-- The node and the number can be read off the name of a link. -/
theorem linkId_inj : linkId u i = linkId v j ↔ u = v ∧ i = j := by
  constructor
  · intro h
    have numbered : ∀ w (k : Nat), linkId w k = w ++ "_virtual_edge" ++ "_" ++ toString k := by
      intro w k
      have base : "_virtual_edge_" = "_virtual_edge" ++ "_" := by decide
      rw [linkId, base, ← String.append_assoc]
    rw [numbered, numbered] at h
    obtain ⟨names, digits⟩ := numbered_inj (isNumeral_toString i) (isNumeral_toString j) h
    exact ⟨String.append_left_inj _ |>.mp names, toString_nat_injective digits⟩
  · rintro ⟨rfl, rfl⟩
    rfl

/-- Edges whose names have no underscores are not named like links. -/
theorem linksApart_of_underscore_not_mem (h : ∀ e ∈ g.edges, '_' ∉ e.id.toList) :
    g.LinksApart := by
  intro e he v _ u _ i heq
  refine h e he ?_
  simp [heq, linkId]

theorem EdgesDistinct.edge_eq (h : g.EdgesDistinct) (he : e ∈ g.edges) (he' : e' ∈ g.edges)
    (hid : e.id = e'.id) : e = e' :=
  List.inj_on_of_nodup_map h he he' hid

/-! ### The edges of one component -/

namespace SplitComponent

variable {reach : Finset String} (h : SplitComponent g p q s reach x y r)
include h

/-- **Names of edges.**  An edge has an old name, or that of a link. -/
theorem of_mem_edges (he : e ∈ (r.restrict (withClone (withClone s q y) p x)).edges) :
    (∃ e₀ ∈ g.edges, e₀.BelongsTo p q s reach ∧ e₀.id = e.id) ∨
      ∃ k, x = some k ∧ e.id = linkId q.id k := by
  rcases List.mem_append.mp (h.edges.mem_iff.mp he) with he | he
  · obtain ⟨e₀, he₀, rfl⟩ := List.mem_map.mp he
    obtain ⟨he₀, hbelongs⟩ := List.mem_filter.mp he₀
    exact .inl ⟨e₀, he₀, of_decide_eq_true hbelongs, rfl⟩
  · obtain ⟨k, i, rfl, -, -, rfl⟩ := mem_pairLinks.mp he
    exact .inr ⟨k, rfl, rfl⟩

/-- The edges of one component keep different names: those it had keep their own, and its link has a
    name that no edge had before. -/
theorem edgesDistinct (hg : g.EdgesDistinct) (hlink : ∀ e ∈ g.edges, ∀ k, e.id ≠ linkId q.id k) :
    (r.restrict (withClone (withClone s q y) p x)).EdgesDistinct := by
  have moved : (g.reattached p q s reach x y).edges.map Edge.id
      = (g.edges.filter (·.BelongsTo p q s reach)).map Edge.id := by
    simp [reattached, Edge.rename, Function.comp_def]
  rw [EdgesDistinct, edgeIds, (h.edges.map Edge.id).nodup_iff, List.map_append, List.nodup_append,
    moved]
  refine ⟨hg.sublist (List.filter_sublist.map _), ?_, ?_⟩
  · -- there is one link at most
    unfold pairLinks
    split
    · split <;> simp
    · simp
  · intro name hold name' hnew heq
    obtain ⟨e, he, rfl⟩ := List.mem_map.mp hold
    obtain ⟨l, hl, rfl⟩ := List.mem_map.mp hnew
    obtain ⟨k, i, -, -, -, rfl⟩ := mem_pairLinks.mp hl
    exact hlink e (List.mem_filter.mp he).1 k heq

end SplitComponent

/-! ### The edges of two components -/

/-- An edge after a split is one of a component. -/
theorem PairSplit.exists_mem_restrict (hsplit : PairSplit g p q (fun s y => withClone s q y) r)
    (he : e ∈ r.edges) :
    ∃ s x y, ((g.without p.id).without q.id).IsComponent s ∧
      SplitComponent g p q s (withClone s q y) x y r ∧
      e ∈ (r.restrict (withClone (withClone s q y) p x)).edges := by
  obtain ⟨hsource, htarget⟩ := hsplit.closed e he
  obtain ⟨t, ht, hmem⟩ := hsplit.distinct.exists_isComponent hsource
  have joined : r.Joined e.source e.target := ⟨hsource, htarget, e, he, by simp [Edge.connects]⟩
  have hmem' : e.target ∈ t := (ht.mem_iff hmem).mpr (.single joined)
  obtain ⟨s, x, y, hs, hcomp, rfl⟩ := hsplit.of_component t ht
  exact ⟨s, x, y, hs, hcomp, mem_edges_restrict.mpr ⟨he, hmem, hmem'⟩⟩

/-- Names are distinct if edges of the same name would be in a part where names are distinct. -/
theorem edgesDistinct_of_restrict
    (h : ∀ e ∈ r.edges, ∀ e' ∈ r.edges, e.id = e'.id →
      ∃ t, e ∈ (r.restrict t).edges ∧ e' ∈ (r.restrict t).edges ∧ (r.restrict t).EdgesDistinct) :
    r.EdgesDistinct := by
  rw [EdgesDistinct, edgeIds, List.Nodup, List.pairwise_map, List.pairwise_iff_forall_sublist]
  intro e e' hsub hid
  obtain ⟨t, he, he', within⟩ := h e (hsub.subset (by simp)) e' (hsub.subset (by simp)) hid
  -- the two come one after the other in the part, too
  have kept : [e, e'].filter (fun e => e.source ∈ t ∧ e.target ∈ t) = [e, e'] := by
    simp [(mem_edges_restrict.mp he).2, (mem_edges_restrict.mp he').2]
  have hsub : [e, e'].Sublist (r.restrict t).edges := kept ▸ hsub.filter _
  exact List.pairwise_iff_forall_sublist.mp (List.pairwise_map.mp within) hsub hid

section Split

variable (h : g.Pivots p q)
include h

/-- The nodes of the pair are not in a component with its clone. -/
theorem Pivots.not_mem_withClone (hs : ((g.without p.id).without q.id).IsComponent s) :
    p.id ∉ withClone s q y ∧ q.id ∉ withClone s q y := by
  simp only [mem_withClone, not_or, not_exists, not_and]
  refine ⟨⟨fun hp => (h.ne_clone_of_component hs hp).1 rfl, fun i _ heq => ?_⟩,
    fun hq => (h.ne_clone_of_component hs hq).2.1 rfl, fun i _ => cloneId_ne q.id i⟩
  exact h.second_clone_not_mem i (heq ▸ h.first_mem_ids)

/-- An edge that belongs to two components has an end in both of them. -/
theorem Pivots.exists_common_of_belongsTo
    (hs : ((g.without p.id).without q.id).IsComponent s)
    (hbelongs : e.BelongsTo p q s (withClone s q y))
    (hbelongs' : e.BelongsTo p q s' (withClone s' q y')) :
    ∃ v ∈ withClone s q y, v ∈ withClone s' q y' := by
  obtain ⟨hp, hq⟩ := h.not_mem_withClone (y := y) hs
  have grows : ∀ s y, s ⊆ withClone s q y := fun s y => Finset.subset_union_left
  -- an end that belongs to the first component is no node of the pair
  have common : ∀ v, v = e.source ∨ v = e.target → v ∈ withClone s q y → v ∈ withClone s' q y' := by
    intro v hv hmem
    rcases hbelongs'.end_mem (grows s' y') hv with hmem' | rfl | rfl
    · exact hmem'
    · exact absurd hmem hp
    · exact absurd hmem hq
  rcases hbelongs.source_or_target_mem (grows s y) with hmem | hmem
  · exact ⟨e.source, hmem, common e.source (.inl rfl) hmem⟩
  · exact ⟨e.target, hmem, common e.target (.inr rfl) hmem⟩

/-- Edges of the same name are edges of the same component. -/
theorem Pivots.component_eq_of_id_eq (hg : g.EdgesDistinct) (hlinks : g.LinksApart)
    (hs : ((g.without p.id).without q.id).IsComponent s)
    (hcomp : SplitComponent g p q s (withClone s q y) x y r)
    (hcomp' : SplitComponent g p q s' (withClone s' q y') x' y' r)
    (he : e ∈ (r.restrict (withClone (withClone s q y) p x)).edges)
    (he' : e' ∈ (r.restrict (withClone (withClone s' q y') p x')).edges) (hid : e.id = e'.id) :
    withClone (withClone s q y) p x = withClone (withClone s' q y') p x' := by
  have not_link : ∀ e ∈ g.edges, ∀ k, e.id ≠ linkId q.id k :=
    fun e he k => hlinks e he q.id h.second_mem_ids q.id .self k
  rcases hcomp.of_mem_edges he with ⟨e₀, he₀, hbelongs, hid₀⟩ | ⟨k, rfl, hk⟩ <;>
    rcases hcomp'.of_mem_edges he' with ⟨e₀', he₀', hbelongs', hid₀'⟩ | ⟨k', rfl, hk'⟩
  · -- both are the same old edge
    obtain rfl := hg.edge_eq he₀ he₀' (by rw [hid₀, hid, hid₀'])
    obtain ⟨v, hv, hv'⟩ := h.exists_common_of_belongsTo hs hbelongs hbelongs'
    exact hcomp.component.eq_of_mem hcomp'.component (mem_withClone.mpr (.inl hv))
      (mem_withClone.mpr (.inl hv'))
  · exact absurd (hid₀.trans (hid.trans hk')) (not_link e₀ he₀ k')
  · exact absurd (hid₀'.trans (hid.symm.trans hk)) (not_link e₀' he₀' k)
  · -- both are links from the same clone
    obtain rfl := (linkId_inj.mp (hk.symm.trans (hid.trans hk'))).2
    have clone_mem : ∀ t, (p.clone k).id ∈ withClone t p (some k) := by simp
    exact hcomp.component.eq_of_mem hcomp'.component (clone_mem _) (clone_mem _)

variable (hsplit : PairSplit g p q (fun s y => withClone s q y) r)
include hsplit

/-- **One split.**  Names of edges stay distinct. -/
theorem PairSplit.edgesDistinct (hg : g.EdgesDistinct) (hlinks : g.LinksApart) :
    r.EdgesDistinct := by
  apply edgesDistinct_of_restrict
  intro e he e' he' hid
  obtain ⟨s, x, y, hs, hcomp, hmem⟩ := hsplit.exists_mem_restrict he
  obtain ⟨s', x', y', -, hcomp', hmem'⟩ := hsplit.exists_mem_restrict he'
  refine ⟨_, hmem, ?_, hcomp.edgesDistinct hg fun e he k => ?_⟩
  · rw [h.component_eq_of_id_eq hg hlinks hs hcomp hcomp' hmem hmem' hid]
    exact hmem'
  · exact hlinks e he q.id h.second_mem_ids q.id .self k

/-- Names of edges stay apart from those of links to come. -/
theorem PairSplit.linksApart (hlinks : g.LinksApart) : r.LinksApart := by
  intro e he v hv u hdesc i hid
  obtain ⟨s, x, y, -, hcomp, hmem⟩ := hsplit.exists_mem_restrict he
  rcases hcomp.of_mem_edges hmem with ⟨e₀, he₀, -, hid₀⟩ | ⟨k, -, hk⟩
  · obtain ⟨w, hw, hwv⟩ := hsplit.exists_descends h hv
    exact hlinks e₀ he₀ w hw u (hwv.trans hdesc) i (hid₀.trans hid)
  · -- a link is named after a node that is gone
    obtain ⟨rfl, -⟩ := linkId_inj.mp (hk.symm.trans hid)
    exact hsplit.not_descends_pivot h hv (.inr rfl) hdesc

end Split

/-! ### Any number of splits -/

/-- All names are distinct, and none is that of a clone or a link to come. -/
structure Named (g : Graph) : Prop extends g.Clear where
  edgesDistinct : g.EdgesDistinct
  linksApart : g.LinksApart

/-- A step keeps all that. -/
theorem Step.named (hstep : Step g p q r) (h : g.Named) : r.Named where
  toClear := hstep.clear
  edgesDistinct := hstep.split.edgesDistinct hstep.pivots h.edgesDistinct h.linksApart
  linksApart := hstep.split.linksApart hstep.pivots h.linksApart

/-- A split keeps names apart. -/
theorem Named.exists_splitFirst (h : g.Named) : ∃ r, g.splitFirst = .ok r ∧ r.Named := by
  by_cases hpairs : g.articulationPairs = []
  · exact ⟨g, by rw [splitFirst, hpairs], h⟩
  · obtain ⟨p, q, r, hstep⟩ := h.toClear.exists_step hpairs
    exact ⟨r, hstep.splitFirst_eq, hstep.named h⟩

/-- So do several splits. -/
theorem Named.exists_splitTimes (h : g.Named) (k : Nat) :
    ∃ r, splitTimes k g = .ok r ∧ r.Named := by
  induction k generalizing g with
  | zero => exact ⟨g, rfl, h⟩
  | succ k ih =>
    obtain ⟨f, hf, hnamed⟩ := h.exists_splitFirst
    rw [splitTimes_succ hf]
    exact ih hnamed

/-- **Unique names.**  Let the nodes and the edges of a graph have distinct names, and let none of
    them be named like a clone or a link that a split may make.  Then the nodes and the edges have
    distinct names after any number of splits at first articulation pairs. -/
theorem splitTimes_distinct (g : Graph) (hg : g.Distinct) (hedges : g.EdgesDistinct)
    (hapart : g.NamesApart) (hlinks : g.LinksApart) (k : Nat) :
    ∃ r, splitTimes k g = .ok r ∧ r.Distinct ∧ r.EdgesDistinct := by
  obtain ⟨r, hr, hnamed⟩ := Named.exists_splitTimes ⟨⟨hg, hapart⟩, hedges, hlinks⟩ k
  exact ⟨r, hr, hnamed.distinct, hnamed.edgesDistinct⟩

/-- One split of two triangles, which makes two links. -/
theorem splitTimes_distinct_crossedSquare :
    crossedSquare.Distinct ∧ crossedSquare.EdgesDistinct ∧ crossedSquare.NamesApart ∧
      crossedSquare.LinksApart ∧
      ∃ r, splitTimes 1 crossedSquare = .ok r ∧ r.Distinct ∧ r.EdgesDistinct := by
  have distinct : crossedSquare.Distinct := by decide
  have edges_distinct : crossedSquare.EdgesDistinct := by decide
  have apart : crossedSquare.NamesApart := namesApart_of_underscore_not_mem (by decide)
  have links_apart : crossedSquare.LinksApart := linksApart_of_underscore_not_mem (by decide)
  exact ⟨distinct, edges_distinct, apart, links_apart,
    splitTimes_distinct crossedSquare distinct edges_distinct apart links_apart 1⟩

/-- A square from `a` over `b`, `c` and `d`, and names that are going to be given once more. -/
def takenNames : Graph where
  nodes := [⟨"a", .point⟩, ⟨"b", .point⟩, ⟨"c", .point⟩, ⟨"d", .point⟩, ⟨"c_0", .point⟩]
  edges := [⟨"c_virtual_edge_0", .distance, "a", "b"⟩, ⟨"bc", .distance, "b", "c"⟩,
    ⟨"cd", .distance, "c", "d"⟩, ⟨"da", .distance, "d", "a"⟩]

/-- The clone of `c` has the name of another node, and a link that of another edge. -/
theorem not_distinct_takenNames :
    takenNames.Distinct ∧ takenNames.EdgesDistinct ∧
      ∃ r, splitTimes 1 takenNames = .ok r ∧ ¬ r.Distinct ∧ ¬ r.EdgesDistinct := by
  refine ⟨by decide, by decide, ⟨[⟨"b", .point⟩, ⟨"c_0", .point⟩, ⟨"a_0", .point⟩, ⟨"d", .point⟩,
    ⟨"c_1", .point⟩, ⟨"a_1", .point⟩, ⟨"c_0", .point⟩], [⟨"bc", .distance, "b", "c_0"⟩,
    ⟨"c_virtual_edge_0", .distance, "a_0", "b"⟩, ⟨"c_virtual_edge_0", .virtual, "a_0", "c_0"⟩,
    ⟨"cd", .distance, "c_1", "d"⟩, ⟨"da", .distance, "d", "a_1"⟩,
    ⟨"c_virtual_edge_1", .virtual, "a_1", "c_1"⟩]⟩, ?_, by decide, by decide⟩
  cbv

end Graph

end Drafting
