import Drafting.Proofs.Graph.Lineage

namespace Drafting

/-!
# Which nodes survive a decomposition

A split takes its two nodes out and gives clones of them to the components they are joined to.  A
node of the pair that nothing but the other one is joined to gets no clone: it is gone.

* `Graph.HasOutlet` — an edge leads to a node outside the pair;
* `Graph.Outlives` — the node is still there after a split, or has a clone;
* `Graph.Lineage` — every node descends from a node of the same kind;
* `Graph.decomposeWithin_keeps_iff` — a node is lost iff all that descended from it disappeared in
  one split.
-/

namespace Graph

variable {g f r : Graph} {p q n m : Node} {u v w : String} {k : Nat}
  {reach : Finset String → Option Nat → Finset String}

/-- An edge leads from `v` to a node outside the pair of `a` and `b`. -/
def HasOutlet (g : Graph) (a b v : String) : Prop :=
  ∃ e ∈ g.edges, ∃ u ∈ ((g.without a).without b).ids, e.connects v u = true

/-- The node `v` is still there in `r`, which is `g` split at the pair of `a` and `b`, or there is a
    clone of it. -/
def Outlives (g : Graph) (a b : String) (r : Graph) (v : String) : Prop :=
  (v ≠ a ∧ v ≠ b) ∨ g.HasOutlet a b v ∨ (v = a ∧ g.Captures a b r)

/-! ### The clones of a split -/

section Clones

variable (h : g.Pivots p q) (hsplit : PairSplit g p q (fun s y => withClone s q y) r)
include h hsplit

/-- A clone of the second node is the one of a component. -/
theorem PairSplit.of_second_clone_mem {i : Nat} (hclone : cloneId q.id i ∈ r.ids) :
    ∃ s x, ((g.without p.id).without q.id).IsComponent s ∧
      SplitComponent g p q s (withClone s q (some i)) x (some i) r := by
  obtain ⟨n, hn, hid⟩ := List.mem_map.mp hclone
  obtain ⟨s, x, y, hs, hcomp, hmem⟩ := hsplit.exists_splitComponent hn
  rcases mem_nodes_reattached.mp hmem with ⟨hn, -⟩ | ⟨j, rfl, rfl⟩ | ⟨k, -, rfl⟩
  · have known : n.id ∈ g.ids := List.mem_map_of_mem hn
    rw [hid] at known
    exact absurd known (h.second_clone_not_mem i)
  · obtain rfl := (cloneId_inj.mp hid).2
    exact ⟨s, x, hs, hcomp⟩
  · exact absurd hid (h.clone_ne k i)

/-- A clone of the first node is the one of a component. -/
theorem PairSplit.of_first_clone_mem (hclone : cloneId p.id k ∈ r.ids) :
    ∃ s y, ((g.without p.id).without q.id).IsComponent s ∧
      SplitComponent g p q s (withClone s q y) (some k) y r := by
  obtain ⟨n, hn, hid⟩ := List.mem_map.mp hclone
  obtain ⟨s, x, y, hs, hcomp, hmem⟩ := hsplit.exists_splitComponent hn
  rcases mem_nodes_reattached.mp hmem with ⟨hn, -⟩ | ⟨i, -, rfl⟩ | ⟨j, rfl, rfl⟩
  · have known : n.id ∈ g.ids := List.mem_map_of_mem hn
    rw [hid] at known
    exact absurd known (h.first_clone_not_mem k)
  · exact absurd hid.symm (h.clone_ne k i)
  · obtain rfl := (cloneId_inj.mp hid).2
    exact ⟨s, y, hs, hcomp⟩

/-- The second node has a clone iff it has an outlet. -/
theorem PairSplit.exists_second_clone_iff :
    (∃ i, q.clone i ∈ r.nodes) ↔ g.HasOutlet p.id q.id q.id := by
  constructor
  · rintro ⟨i, hi⟩
    obtain ⟨s, x, hs, hcomp⟩ := hsplit.of_second_clone_mem h (List.mem_map_of_mem hi)
    obtain ⟨e, he, hatt⟩ := hcomp.second_iff.mp rfl
    obtain ⟨u, hu, hconn⟩ := Edge.attaches_iff.mp hatt
    exact ⟨e, he, u, hs.mem_ids hu, hconn⟩
  · rintro ⟨e, he, u, hu, hconn⟩
    obtain ⟨s, hs, hmem⟩ := ((h.distinct.without p.id).without q.id).exists_isComponent hu
    obtain ⟨x, y, hcomp⟩ := hsplit.component s hs
    have hy := hcomp.second_iff.mpr ⟨e, he, Edge.attaches_iff.mpr ⟨u, hmem, hconn⟩⟩
    obtain ⟨i, rfl⟩ := Option.isSome_iff_exists.mp hy
    exact ⟨i, hcomp.second_clone_mem rfl⟩

/-- The first node has a clone iff it has an outlet, or one of its edges is captured. -/
theorem PairSplit.exists_first_clone_iff :
    (∃ k, p.clone k ∈ r.nodes) ↔ g.HasOutlet p.id q.id p.id ∨ g.Captures p.id q.id r := by
  constructor
  · rintro ⟨k, hk⟩
    obtain ⟨s, y, hs, hcomp⟩ := hsplit.of_first_clone_mem h (List.mem_map_of_mem hk)
    obtain ⟨e, he, hatt⟩ := hcomp.first_iff.mp rfl
    obtain ⟨u, hu, hconn⟩ := Edge.attaches_iff.mp hatt
    -- the edge leads into the component, or to the clone of the second node in it
    rcases mem_withClone.mp hu with hu | ⟨i, rfl, rfl⟩
    · exact Or.inl ⟨e, he, u, hs.mem_ids hu, hconn⟩
    · exact Or.inr ⟨e, he, i, List.mem_map_of_mem (hcomp.second_clone_mem rfl), hconn⟩
  · have has_clone : ∀ s x y, SplitComponent g p q s (withClone s q y) x y r →
        (∃ e ∈ g.edges, ∃ u ∈ withClone s q y, e.connects p.id u = true) →
        ∃ k, p.clone k ∈ r.nodes := by
      rintro s x y hcomp ⟨e, he, u, hu, hconn⟩
      have hx := hcomp.first_iff.mpr ⟨e, he, Edge.attaches_iff.mpr ⟨u, hu, hconn⟩⟩
      obtain ⟨k, rfl⟩ := Option.isSome_iff_exists.mp hx
      exact ⟨k, hcomp.first_clone_mem rfl⟩
    rintro (⟨e, he, u, hu, hconn⟩ | ⟨e, he, i, hi, hconn⟩)
    · obtain ⟨s, hs, hmem⟩ := ((h.distinct.without p.id).without q.id).exists_isComponent hu
      obtain ⟨x, y, hcomp⟩ := hsplit.component s hs
      exact has_clone s x y hcomp ⟨e, he, u, mem_withClone.mpr (Or.inl hmem), hconn⟩
    · obtain ⟨s, x, hs, hcomp⟩ := hsplit.of_second_clone_mem h hi
      exact has_clone s x _ hcomp
        ⟨e, he, cloneId q.id i, mem_withClone.mpr (Or.inr ⟨i, rfl, rfl⟩), hconn⟩

end Clones

/-! ### One step -/

/-- Every node of `f` descends from a node of `g` of the same kind. -/
def Lineage (g f : Graph) : Prop :=
  ∀ m ∈ f.nodes, ∃ n ∈ g.nodes, n.kind = m.kind ∧ Descends n.id m.id

theorem Lineage.refl (g : Graph) : Lineage g g := fun m hm => ⟨m, hm, rfl, .self⟩

/-- Lineage goes on through a split. -/
theorem Lineage.step (hl : Lineage g f) (h : f.Pivots p q) (hsplit : PairSplit f p q reach r) :
    Lineage g r := by
  intro m hm
  rcases hsplit.of_mem_nodes hm with ⟨hm, -⟩ | ⟨k, rfl⟩ | ⟨i, rfl⟩
  · exact hl m hm
  · obtain ⟨n, hn, hkind, hdesc⟩ := hl p h.first_mem
    exact ⟨n, hn, hkind, hdesc.cloneId k⟩
  · obtain ⟨n, hn, hkind, hdesc⟩ := hl q h.second_mem
    exact ⟨n, hn, hkind, hdesc.cloneId i⟩

/-- What descends from a node is of its kind. -/
theorem Lineage.kind_eq (hl : Lineage g f) (hg : g.Clear) (hn : n ∈ g.nodes) (hm : m ∈ f.nodes)
    (hdesc : Descends n.id m.id) : m.kind = n.kind := by
  obtain ⟨n', hn', hkind, hdesc'⟩ := hl m hm
  -- `m` descends from both nodes, and so one of them descends from the other
  have hid : n'.id = n.id := by
    rcases hdesc.total hdesc' with hd | hd
    · exact hg.apart _ (List.mem_map_of_mem hn) _ (List.mem_map_of_mem hn') hd
    · exact (hg.apart _ (List.mem_map_of_mem hn') _ (List.mem_map_of_mem hn) hd).symm
  rw [← hkind, hg.distinct.node_eq hn' hn hid]

/-- A node of `g` is not named like a clone of a node of `f`. -/
theorem Lineage.ne_cloneId (hl : Lineage g f) (hg : g.Clear) (hn : n ∈ g.nodes) (hm : m ∈ f.nodes)
    (k : Nat) : n.id ≠ cloneId m.id k := by
  intro heq
  obtain ⟨n', hn', -, hdesc⟩ := hl m hm
  have hid := hg.apart _ (List.mem_map_of_mem hn') _ (List.mem_map_of_mem hn)
    (heq ▸ hdesc.cloneId k)
  rw [← hid, heq] at hdesc
  exact cloneId_ne m.id k (hdesc.antisymm (descends_cloneId m.id k)).symm

/-- **One step.**  A node lives on iff something that descends from it outlives the split. -/
theorem Step.lives_iff (h : Step f p q r) (hl : Lineage g f) (hg : g.Clear) (hn : n ∈ g.nodes) :
    (∃ m ∈ r.nodes, Descends n.id m.id) ↔
      ∃ m ∈ f.nodes, Descends n.id m.id ∧ f.Outlives p.id q.id r m.id := by
  constructor
  · rintro ⟨m, hm, hdesc⟩
    rcases h.split.of_mem_nodes hm with ⟨hm', hne⟩ | ⟨k, rfl⟩ | ⟨i, rfl⟩
    · exact ⟨m, hm', hdesc, Or.inl hne⟩
    · have hp : Descends n.id p.id :=
        hdesc.of_cloneId.resolve_left (hl.ne_cloneId hg hn h.pivots.first_mem k)
      have hclone := (h.split.exists_first_clone_iff h.pivots).mp ⟨k, hm⟩
      exact ⟨p, h.pivots.first_mem, hp, Or.inr (hclone.imp_right fun hcap => ⟨rfl, hcap⟩)⟩
    · have hq : Descends n.id q.id :=
        hdesc.of_cloneId.resolve_left (hl.ne_cloneId hg hn h.pivots.second_mem i)
      have hclone := (h.split.exists_second_clone_iff h.pivots).mp ⟨i, hm⟩
      exact ⟨q, h.pivots.second_mem, hq, Or.inr (Or.inl hclone)⟩
  · rintro ⟨m, hm, hdesc, hout⟩
    -- a node of the pair lives on in a clone, any other node by itself
    by_cases hmp : m.id = p.id
    · have hclone : f.HasOutlet p.id q.id p.id ∨ f.Captures p.id q.id r := by
        rw [hmp] at hout
        rcases hout with ⟨hne, -⟩ | hout | ⟨-, hcap⟩
        · exact absurd rfl hne
        · exact Or.inl hout
        · exact Or.inr hcap
      obtain ⟨k, hk⟩ := (h.split.exists_first_clone_iff h.pivots).mpr hclone
      exact ⟨p.clone k, hk, (hmp ▸ hdesc).cloneId k⟩
    · by_cases hmq : m.id = q.id
      · have hclone : f.HasOutlet p.id q.id q.id := by
          rw [hmq] at hout
          rcases hout with ⟨-, hne⟩ | hout | ⟨heq, -⟩
          · exact absurd rfl hne
          · exact hout
          · exact absurd heq.symm h.pivots.ne
        obtain ⟨i, hi⟩ := (h.split.exists_second_clone_iff h.pivots).mpr hclone
        exact ⟨q.clone i, hi, (hmq ▸ hdesc).cloneId i⟩
      · exact ⟨m, h.split.mem_nodes_of_ne h.pivots.distinct hm hmp hmq, hdesc⟩

/-! ### A whole run -/

/-- The split number `i` is outlived by something that descends from `u`. -/
def OutlivesSplit (g : Graph) (u : String) (i : Nat) : Prop :=
  ∀ f r a b, splitTimes i g = .ok f → f.articulationPairs.head? = some (a, b) →
    f.splitAtPair a b = .ok r → ∃ m ∈ f.nodes, Descends u m.id ∧ f.Outlives a b r m.id

/-- After `i` splits that lead to `f`, a name outlives the next one iff a node of `f` that descends
    from it does. -/
theorem Step.outlivesSplit_iff (h : Step f p q r) {i : Nat} (hf : splitTimes i g = .ok f) :
    g.OutlivesSplit u i ↔ ∃ m ∈ f.nodes, Descends u m.id ∧ f.Outlives p.id q.id r m.id := by
  constructor
  · exact fun hout => hout f r p.id q.id hf h.first h.eq
  · rintro hout f' r' a b hf' hfirst heq
    obtain rfl := Except.ok.inj (hf.symm.trans hf')
    obtain ⟨rfl, rfl⟩ := Prod.mk.inj (Option.some.inj (h.first.symm.trans hfirst))
    obtain rfl := Except.ok.inj (h.eq.symm.trans heq)
    exact hout

/-- As long as there are pairs, a node lives on iff it outlives all splits so far. -/
theorem Clear.run_spec (hg : g.Clear) {k : Nat}
    (hpairs : ∀ i < k, ∀ f, splitTimes i g = .ok f → f.articulationPairs ≠ []) :
    ∃ f, splitTimes k g = .ok f ∧ f.Clear ∧ Lineage g f ∧
      ∀ n ∈ g.nodes, (∃ m ∈ f.nodes, Descends n.id m.id) ↔ ∀ i < k, g.OutlivesSplit n.id i := by
  induction k with
  | zero =>
    refine ⟨g, rfl, hg, Lineage.refl g,
      fun n hn => ⟨fun _ i hi => absurd hi (Nat.not_lt_zero i), ?_⟩⟩
    exact fun _ => ⟨n, hn, .self⟩
  | succ k ih =>
    obtain ⟨f, hf, hclear, hl, hlives⟩ := ih fun i hi => hpairs i (Nat.lt_succ_of_lt hi)
    obtain ⟨p, q, r, step⟩ := hclear.exists_step (hpairs k (Nat.lt_succ_self k) f hf)
    refine ⟨r, ?_, step.clear, hl.step step.pivots step.split, fun n hn => ?_⟩
    · rw [splitTimes_succ_eq_bind, hf]
      exact step.splitFirst_eq
    · rw [step.lives_iff hl hg hn, ← step.outlivesSplit_iff hf]
      constructor
      · intro hout i hi
        -- what outlives the last split was there before it, and so it outlived the others
        rcases Nat.lt_succ_iff_lt_or_eq.mp hi with hi | rfl
        · obtain ⟨m, hm, hdesc, -⟩ := (step.outlivesSplit_iff hf).mp hout
          exact (hlives n hn).mp ⟨m, hm, hdesc⟩ i hi
        · exact hout
      · exact fun hout => hout k (Nat.lt_succ_self k)

/-- **Survival.**  A decomposition keeps a node iff at every split something that descends from the
    node is not of the pair, or gets a clone. -/
theorem decomposeWithin_keeps_iff (g : Graph) (hg : g.Distinct) (hapart : g.NamesApart)
    (limit : Nat) :
    ∃ k r, splitTimes k g = .ok r ∧
      (g.decomposeWithin limit = .ok ⟨r, k⟩ ∨
        g.decomposeWithin limit = .error (.incomplete k r)) ∧
      ∀ n ∈ g.nodes, (∃ m ∈ r.nodes, m.kind = n.kind ∧ Descends n.id m.id) ↔
        ∀ i < k, g.OutlivesSplit n.id i := by
  have hclear : g.Clear := ⟨hg, hapart⟩
  obtain ⟨k, -, r, hr, hpairs, hend⟩ := g.decomposeFrom_eq limit 0
  obtain ⟨r', hr', -, hl, hlives⟩ := hclear.run_spec hpairs
  obtain rfl := Except.ok.inj (hr.symm.trans hr')
  rw [Nat.zero_add] at hend
  refine ⟨k, r, hr, ?_, fun n hn => ?_⟩
  · exact hend.imp (fun hdone => hdone.2) fun hstopped => hstopped.2.2
  · rw [← hlives n hn]
    refine exists_congr fun m => and_congr_right fun hm => ?_
    exact ⟨fun hkept => hkept.2, fun hdesc => ⟨hl.kind_eq hclear hn hm hdesc, hdesc⟩⟩

/-- A star.  Its centre and a leaf are an articulation pair, and nothing but the centre is joined to
    the leaf. -/
def star : Graph where
  nodes := [⟨"a", .point⟩, ⟨"b", .point⟩, ⟨"c", .point⟩, ⟨"d", .point⟩]
  edges := [⟨"ab", .distance, "a", "b"⟩, ⟨"bc", .distance, "b", "c"⟩, ⟨"bd", .distance, "b", "d"⟩]

/-- A star, of which one leaf is lost in the first split. -/
theorem decomposeWithin_keeps_star :
    star.Distinct ∧ star.NamesApart ∧
      ∃ k r, splitTimes k star = .ok r ∧
        (star.decomposeWithin 8 = .ok ⟨r, k⟩ ∨ star.decomposeWithin 8 = .error (.incomplete k r)) ∧
        ∀ n ∈ star.nodes, (∃ m ∈ r.nodes, m.kind = n.kind ∧ Descends n.id m.id) ↔
          ∀ i < k, star.OutlivesSplit n.id i := by
  have distinct : star.Distinct := by decide
  have apart : star.NamesApart := namesApart_of_underscore_not_mem (by decide)
  exact ⟨distinct, apart, decomposeWithin_keeps_iff star distinct apart 8⟩

/-- The centre with each of the two other leaves. -/
def starSplit : Graph where
  nodes := [⟨"c", .point⟩, ⟨"b_0", .point⟩, ⟨"d", .point⟩, ⟨"b_1", .point⟩]
  edges := [⟨"bc", .distance, "b_0", "c"⟩, ⟨"bd", .distance, "b_1", "d"⟩]

theorem decomposeWithin_star : star.decomposeWithin 8 = .ok ⟨starSplit, 1⟩ := by cbv

/-- The leaf `a` is lost. -/
theorem not_keeps_star :
    star.Distinct ∧ star.NamesApart ∧ ⟨"a", .point⟩ ∈ star.nodes ∧
      star.decomposeWithin 8 = .ok ⟨starSplit, 1⟩ ∧
      ¬ ∃ m ∈ starSplit.nodes, m.kind = .point ∧ Descends "a" m.id := by
  refine ⟨by decide, namesApart_of_underscore_not_mem (by decide), by decide,
    decomposeWithin_star, ?_⟩
  rintro ⟨m, hm, -, hdesc⟩
  have none_begins : ∀ m ∈ starSplit.nodes, ¬ "a".toList <+: m.id.toList := by decide
  exact none_begins m hm hdesc.toList_prefix

end Graph

end Drafting
