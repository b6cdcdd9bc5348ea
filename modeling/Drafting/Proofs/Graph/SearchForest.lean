import Drafting.Proofs.Graph.Separation

namespace Drafting

open Relation

/-!
# Search forests

A depth-first search of an undirected graph leaves a forest behind in which every edge of the graph
joins a point and one of its ancestors.  That alone says which points separate others:

* `Above parent u w` — `u` is `w` or an ancestor of `w`;
* `SearchForest R` — parents and depths with `R x y → Above x y ∨ Above y x`;
* `separates_inner` — a point with a parent separates iff from the subtree of one of its children
  no edge reaches higher than the point;
* `separates_root` — a root separates iff it has two children.
-/

variable {α : Type*} {R : α → α → Prop}

/-- `u` is `w` or an ancestor of `w`. -/
def Above (parent : α → Option α) (u w : α) : Prop :=
  ReflTransGen (fun x y => parent x = some y) w u

/-! ### Ancestors -/

section Ancestors

variable {parent : α → Option α}

theorem Above.refl (u : α) : Above parent u u := ReflTransGen.refl

theorem Above.trans {u v w : α} (huv : Above parent u v) (hvw : Above parent v w) :
    Above parent u w := ReflTransGen.trans hvw huv

theorem above_of_parent {u w : α} (h : parent w = some u) : Above parent u w :=
  ReflTransGen.single h

/-- A proper ancestor is above the parent. -/
theorem Above.of_parent {u w p : α} (h : Above parent u w) (hp : parent w = some p) (hne : u ≠ w) :
    Above parent u p := by
  rcases h.cases_head with rfl | ⟨q, hq, path⟩
  · exact absurd rfl hne
  · have : q = p := Option.some.inj (hq.symm.trans hp)
    exact this ▸ path

/-- Nothing else is above a root. -/
theorem Above.eq_of_root {u w : α} (h : Above parent u w) (hw : parent w = none) : u = w := by
  rcases h.cases_head with rfl | ⟨q, hq, -⟩
  · rfl
  · rw [hw] at hq
    cases hq

/-- What is properly below `v` is below a child of `v`. -/
theorem Above.exists_child {v w : α} (h : Above parent v w) (hne : w ≠ v) :
    ∃ c, parent c = some v ∧ Above parent c w := by
  rcases ReflTransGen.cases_tail h with rfl | ⟨c, path, hc⟩
  · exact absurd rfl hne
  · -- the last step of the way up leads from the child to `v`
    exact ⟨c, hc, path⟩

/-- The ancestors of a point are above each other. -/
theorem Above.total {u v w : α} (hu : Above parent u w) (hv : Above parent v w) :
    Above parent u v ∨ Above parent v u :=
  (ReflTransGen.total_of_right_unique
    (fun _ _ _ hb hc => Option.some.inj (hb.symm.trans hc)) hu hv).symm

/-- More parents, more ancestors. -/
theorem Above.mono {parent' : α → Option α} (h : ∀ x y, parent x = some y → parent' x = some y)
    {u w : α} (huw : Above parent u w) : Above parent' u w :=
  ReflTransGen.mono (fun x y hxy => h x y hxy) _ _ huw

end Ancestors

/-! ### Forests that leave no cross edges -/

/-- Parents and depths such that every edge joins a point and one of its ancestors. -/
structure SearchForest (R : α → α → Prop) where
  parent : α → Option α
  depth : α → Nat
  edge_of_parent : ∀ {x y}, parent y = some x → R x y
  depth_of_parent : ∀ {x y}, parent y = some x → depth y = depth x + 1
  above_of_edge : ∀ {x y}, R x y → Above parent x y ∨ Above parent y x

namespace SearchForest

variable (T : SearchForest R) {v : α}

/-- What is above is not deeper. -/
theorem depth_le {u w : α} (h : Above T.parent u w) : T.depth u ≤ T.depth w := by
  induction h with
  | refl => exact le_refl _
  | tail _ step ih =>
    have := T.depth_of_parent step
    omega

/-- An ancestor of the same depth is the point itself. -/
theorem eq_of_depth_le {u w : α} (h : Above T.parent u w) (hd : T.depth w ≤ T.depth u) :
    u = w := by
  rcases ReflTransGen.cases_head h with rfl | ⟨p, hp, path⟩
  · rfl
  · have h1 := T.depth_of_parent hp
    have h2 := T.depth_le path
    omega

/-- Down the forest to a point below, on a way that avoids `v`. -/
theorem avoiding_down {u w : α} (h : Above T.parent u w)
    (hv : ∀ z, Above T.parent u z → Above T.parent z w → z ≠ v) :
    ReflTransGen (Avoiding R v) u w := by
  -- from `w` up to `u`, one parent at a time
  induction h using ReflTransGen.head_induction_on with
  | refl => exact .refl
  | @head w p hp path ih =>
    have hpw : Above T.parent p w := above_of_parent hp
    have hup : Above T.parent u p := path
    refine (ih fun z huz hzp => hv z huz (hzp.trans hpw)).tail ⟨T.edge_of_parent hp, ?_, ?_⟩
    · exact hv p hup hpw
    · exact hv w (hup.trans hpw) (.refl w)

/-- Inside the subtree of a child of `v` every point is reached without `v`. -/
theorem avoiding_subtree {c w : α} (hc : T.parent c = some v) (h : Above T.parent c w) :
    ReflTransGen (Avoiding R v) c w := by
  refine T.avoiding_down h fun z hcz _ hzv => ?_
  have h1 := T.depth_of_parent hc
  have h2 := T.depth_le hcz
  rw [hzv] at h2
  omega

/-- If all edges that leave the subtree of a child of `v` go to `v`, then without `v` nothing
    else is reached from it. -/
theorem above_of_avoiding {c w : α} (hc : T.parent c = some v)
    (hout : ∀ y z, Above T.parent c y → R y z → Above T.parent z v → z = v)
    (h : ReflTransGen (Avoiding R v) c w) : Above T.parent c w := by
  refine mem_of_path (S := fun w => Above T.parent c w) ?_ h (.refl c)
  rintro y z hcy ⟨hyz, -, hzv⟩
  rcases T.above_of_edge hyz with hyz' | hzy
  · exact hcy.trans hyz'
  · rcases hcy.total hzy with hcz | hzc
    · exact hcz
    · -- above `c` there are only `v` and what is above `v`
      by_cases hne : z = c
      · rw [hne]
        exact .refl c
      · exact absurd (hout y z hcy hyz (hzc.of_parent hc hne)) hzv

variable [Std.Symm R]

/-! ### A point with a parent -/

/-- If from the subtree of every child an edge reaches higher than `v`, then every neighbour of
    `v` reaches the parent of `v` without `v`. -/
theorem avoiding_parent {p x : α} (hp : T.parent v = some p)
    (hup : ∀ c, T.parent c = some v → ∃ y z, Above T.parent c y ∧ R y z ∧ T.depth z < T.depth v)
    (hx : R x v) (hxv : x ≠ v) : ReflTransGen (Avoiding R v) x p := by
  have depth_p := T.depth_of_parent hp
  -- a proper ancestor of `v` goes down to the parent
  have ancestor : ∀ z, Above T.parent z v → z ≠ v → ReflTransGen (Avoiding R v) z p := by
    intro z hz hne
    refine T.avoiding_down (hz.of_parent hp hne) fun y _ hyp hyv => ?_
    have := T.depth_le hyp
    rw [hyv] at this
    omega
  rcases T.above_of_edge hx with hxv' | hvx
  · exact ancestor x hxv' hxv
  · -- a proper descendant goes up to its child of `v`, down to the edge, and over it
    obtain ⟨c, hc, hcx⟩ := hvx.exists_child hxv
    obtain ⟨y, z, hcy, hyz, hz⟩ := hup c hc
    have depth_c := T.depth_of_parent hc
    have depth_y := T.depth_le hcy
    have hzy : Above T.parent z y := by
      rcases T.above_of_edge hyz with hyz' | hzy
      · have := T.depth_le hyz'
        omega
      · exact hzy
    have hzv : Above T.parent z v := by
      rcases hzy.total ((above_of_parent hc).trans hcy) with hzv | hvz
      · exact hzv
      · have := T.depth_le hvz
        omega
    have hyv : y ≠ v := fun h => by rw [h] at depth_y; omega
    have hne : z ≠ v := fun h => by rw [h] at hz; omega
    have up : ReflTransGen (Avoiding R v) x c := symm (T.avoiding_subtree hc hcx)
    have across : ReflTransGen (Avoiding R v) c z :=
      (T.avoiding_subtree hc hcy).tail ⟨hyz, hyv, hne⟩
    exact up.trans (across.trans (ancestor z hzv hne))

/-- **Inner points.**  A point with a parent separates iff from the subtree of one of its children
    no edge reaches higher than the point. -/
theorem separates_inner {p : α} (hp : T.parent v = some p) :
    Separates R v ↔
      ∃ c, T.parent c = some v ∧ ∀ y z, Above T.parent c y → R y z → T.depth v ≤ T.depth z := by
  have depth_p := T.depth_of_parent hp
  constructor
  · intro hsep
    by_contra hno
    push Not at hno
    -- otherwise all neighbours of `v` reach the parent of `v` without it
    refine not_separates (fun x y hx hxv hy hyv => ?_) hsep
    exact (T.avoiding_parent hp hno hx hxv).trans (symm (T.avoiding_parent hp hno (symm hy) hyv))
  · rintro ⟨c, hc, hlow⟩
    have depth_c := T.depth_of_parent hc
    have hcv : c ≠ v := fun h => by rw [h] at depth_c; omega
    have hpv : p ≠ v := fun h => by rw [h] at depth_p; omega
    -- the child and the parent are neighbours of `v`, and only `v` is between them
    refine ⟨c, p, hcv, hpv, ?_, fun path => ?_⟩
    · exact (ReflTransGen.single (symm (T.edge_of_parent hc))).tail (symm (T.edge_of_parent hp))
    · have hcp : Above T.parent c p := by
        refine T.above_of_avoiding hc (fun y z hcy hyz hzv => ?_) path
        exact T.eq_of_depth_le hzv (hlow y z hcy hyz)
      have := T.depth_le hcp
      omega

/-! ### A root -/

/-- **Roots.**  A root separates iff it has two children. -/
theorem separates_root (hv : T.parent v = none) :
    Separates R v ↔ ∃ c d, c ≠ d ∧ T.parent c = some v ∧ T.parent d = some v := by
  constructor
  · intro hsep
    by_contra hno
    push Not at hno
    -- all neighbours are below the only child
    refine not_separates (fun x y hx hxv hy hyv => ?_) hsep
    have below : ∀ x, R x v → x ≠ v → Above T.parent v x := by
      intro x hx hxv
      rcases T.above_of_edge hx with h | h
      · exact absurd (h.eq_of_root hv) hxv
      · exact h
    obtain ⟨c, hc, hcx⟩ := (below x hx hxv).exists_child hxv
    obtain ⟨d, hd, hdy⟩ := (below y (symm hy) hyv).exists_child hyv
    obtain rfl : c = d := by
      by_contra hcd
      exact hno c d hcd hc hd
    have up : ReflTransGen (Avoiding R v) x c := symm (T.avoiding_subtree hc hcx)
    exact up.trans (T.avoiding_subtree hd hdy)
  · rintro ⟨c, d, hcd, hc, hd⟩
    have depth_c := T.depth_of_parent hc
    have depth_d := T.depth_of_parent hd
    have hcv : c ≠ v := fun h => by rw [h] at depth_c; omega
    have hdv : d ≠ v := fun h => by rw [h] at depth_d; omega
    -- the subtrees of two children have no common place
    refine ⟨c, d, hcv, hdv, ?_, fun path => ?_⟩
    · exact (ReflTransGen.single (symm (T.edge_of_parent hc))).tail (T.edge_of_parent hd)
    · have hcd' : Above T.parent c d :=
        T.above_of_avoiding hc (fun _ z _ _ hzv => hzv.eq_of_root hv) path
      exact hcd (T.eq_of_depth_le hcd' (by omega))

end SearchForest

end Drafting
