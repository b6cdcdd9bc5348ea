import Drafting.Proofs.LowLink.Enter
import Drafting.Proofs.LowLink.Leave

namespace Drafting

/-!
# The low-link search finds the cut vertices

Each step keeps the invariant (`Invariant.step`), hence so do a run and the searches from all
places.  At the end all places have been left, and parents and depths are a search forest.
-/

namespace LowLink

variable {n : Nat} {adjacency : Adjacency n} {s s' : LowLink n}

/-- Looking at the next neighbour of the deepest place keeps the invariant. -/
theorem Invariant.look (h : Invariant adjacency s) (hsymm : adjacency.IsSymmetric)
    {v : Visit n} {path : List (Visit n)} {next : Fin n} {pending : List (Fin n)}
    (hpath : s.path = v :: path) (hpending : v.pending = next :: pending) :
    Invariant adjacency (s.look adjacency v next pending path) := by
  unfold LowLink.look
  split
  · next hnew => exact h.enter_child hpath hpending hnew
  · next d hd =>
    dsimp only
    split
    · next hparent =>
      -- the edge to the parent changes nothing
      exact h.see hsymm hpath hpending hd ⟨rfl, rfl, fun _ => rfl, le_refl _⟩ rfl rfl
        (Or.inl rfl) (fun hne => absurd hparent hne)
    · -- any other edge lowers the low value to the depth of its end, if that is less
      have hlow := get_low_lower (s := { s with path := { v with pending } :: path }) v.place
        v.place d
      rw [if_pos rfl] at hlow
      refine h.see hsymm hpath hpending hd ⟨rfl, rfl, fun hx => ?_, ?_⟩ rfl rfl ?_ fun _ => ?_
      · rw [get_low_lower, if_neg hx.symm]
      · exact hlow ▸ min_le_left _ _
      · rw [hlow]
        exact min_choice _ _
      · exact hlow ▸ min_le_right _ _

/-- **Every step keeps the invariant.** -/
theorem Invariant.step (h : Invariant adjacency s) (hsymm : adjacency.IsSymmetric)
    (hstep : s.step adjacency = some s') : Invariant adjacency s' := by
  unfold LowLink.step at hstep
  split at hstep
  · cases hstep
  · next v path hpath =>
    split at hstep
    · next next pending hpending =>
      exact Option.some.inj hstep ▸ h.look hsymm hpath hpending
    · next hpending =>
      obtain rfl := Option.some.inj hstep
      -- the root ends the search, any other place reports to the one above
      cases path with
      | nil => exact h.leave_root hpath hpending
      | cons up above => exact h.leave_child hpath hpending

/-- Only an empty path stops the search. -/
theorem step_eq_none (hstep : s.step adjacency = none) : s.path = [] := by
  unfold LowLink.step at hstep
  split at hstep
  · next hpath => exact hpath
  · split at hstep <;> cases hstep

/-- A step forgets no place. -/
theorem discovered_step (hstep : s.step adjacency = some s') {x : Fin n} (hx : s.Discovered x) :
    s'.Discovered x := by
  unfold LowLink.step at hstep
  split at hstep
  · cases hstep
  · next v path _ =>
    split at hstep
    · next next pending _ =>
      obtain rfl := Option.some.inj hstep
      unfold LowLink.look
      split
      · -- only the depth of the new place is set
        obtain ⟨d, hd⟩ := hx
        refine ⟨if next = x then v.depth + 1 else d, ?_⟩
        rw [get_depth_enter, hd]
        split <;> rfl
      · dsimp only
        split <;> exact hx
    · obtain rfl := Option.some.inj hstep
      cases path <;> exact hx

/-- **A run keeps the invariant.**  It ends with an empty path and forgets no place. -/
theorem Invariant.run (h : Invariant adjacency s) (hsymm : adjacency.IsSymmetric) :
    Invariant adjacency (s.run adjacency) ∧ (s.run adjacency).path = [] ∧
      ∀ x, s.Discovered x → (s.run adjacency).Discovered x := by
  fun_induction LowLink.run adjacency s with
  | case1 s hstep => exact ⟨h, step_eq_none hstep, fun _ hx => hx⟩
  | case2 s s' hstep ih =>
    obtain ⟨hinv, hpath, hkept⟩ := ih (h.step hsymm hstep)
    exact ⟨hinv, hpath, fun x hx => hkept x (discovered_step hstep hx)⟩

/-- Nothing is discovered at the start, and so the invariant holds. -/
theorem invariant_start : Invariant adjacency (LowLink.start (n := n)) := by
  have no_depth : ∀ {x : Fin n} {d}, (LowLink.start (n := n)).depth.get x ≠ some d := by
    intro x d hd
    simp [LowLink.start] at hd
  have no_parent : ∀ {x y : Fin n}, (LowLink.start (n := n)).parent.get x ≠ some y := by
    intro x y hy
    simp [LowLink.start] at hy
  refine {
    branch := trivial
    nodup := List.nodup_nil
    visits := fun v hv => absurd hv List.not_mem_nil
    depth_of_parent := fun hp => absurd hp no_parent
    edge_of_parent := fun hp => absurd hp no_parent
    looked := ?_
    low_le_child := fun hp => absurd hp no_parent
    low_le_depth := fun hd => absurd hd no_depth
    low_attained := ?_
    mem_points := ?_
    points_nodup := List.nodup_nil }
  · rintro x ⟨d, hd⟩
    exact absurd hd no_depth
  · rintro x ⟨d, hd⟩
    exact absurd hd no_depth
  · intro x
    refine ⟨fun hx => absurd hx List.not_mem_nil, ?_⟩
    rintro ⟨⟨d, hd⟩, -⟩
    exact absurd hd no_depth

/-- A search from one more root. -/
theorem Invariant.searchNew (h : Invariant adjacency s) (hsymm : adjacency.IsSymmetric)
    (hpath : s.path = []) (root : Fin n) :
    Invariant adjacency (s.searchNew adjacency root) ∧ (s.searchNew adjacency root).path = [] ∧
      ∀ x, s.Discovered x ∨ x = root → (s.searchNew adjacency root).Discovered x := by
  unfold LowLink.searchNew LowLink.search
  split
  · next hnew =>
    rw [Option.isNone_iff_eq_none] at hnew
    obtain ⟨hinv, hpath', hkept⟩ := (h.enter_root hnew hpath).run hsymm
    refine ⟨hinv, hpath', fun x hx => hkept x ?_⟩
    rcases hx with ⟨d, hd⟩ | rfl
    · refine ⟨d, ?_⟩
      rw [get_depth_enter, if_neg, hd]
      rintro rfl
      rw [hnew] at hd
      cases hd
    · exact ⟨0, by rw [get_depth_enter, if_pos rfl]⟩
  · next hold =>
    refine ⟨h, hpath, ?_⟩
    rintro x (hx | rfl)
    · exact hx
    · exact Option.ne_none_iff_exists'.mp fun hnone => hold (by rw [hnone]; rfl)

/-- Searches from a list of roots. -/
theorem Invariant.foldl_searchNew (h : Invariant adjacency s) (hsymm : adjacency.IsSymmetric)
    (hpath : s.path = []) (roots : List (Fin n)) :
    Invariant adjacency (roots.foldl (LowLink.searchNew adjacency) s) ∧
      (roots.foldl (LowLink.searchNew adjacency) s).path = [] ∧
      ∀ x, s.Discovered x ∨ x ∈ roots →
        (roots.foldl (LowLink.searchNew adjacency) s).Discovered x := by
  induction roots generalizing s with
  | nil => exact ⟨h, hpath, fun x hx => hx.resolve_right List.not_mem_nil⟩
  | cons root roots ih =>
    obtain ⟨hinv, hpath', hfound⟩ := h.searchNew hsymm hpath root
    obtain ⟨hinv', hpath'', hfound'⟩ := ih hinv hpath'
    refine ⟨hinv', hpath'', fun x hx => hfound' x ?_⟩
    rcases hx with hx | hx
    · exact Or.inl (hfound x (Or.inl hx))
    · rcases List.mem_cons.mp hx with rfl | hx
      · exact Or.inl (hfound _ (Or.inr rfl))
      · exact Or.inr hx

end LowLink

/-! ### The forest at the end -/

/-- `y` is listed as a neighbour of `x`. -/
def Adjacency.Adj {n : Nat} (adjacency : Adjacency n) (x y : Fin n) : Prop :=
  y ∈ adjacency.get x

namespace LowLink

variable {n : Nat} {adjacency : Adjacency n} {s : LowLink n}

/-- Parents and depths of a search that has left all places. -/
def Invariant.forest (h : Invariant adjacency s) (hpath : s.path = [])
    (hall : ∀ x, s.Discovered x) : SearchForest adjacency.Adj where
  parent := s.parent.get
  depth := fun x => (s.depth.get x).getD 0
  edge_of_parent := h.edge_of_parent
  depth_of_parent := by
    intro x y hp
    obtain ⟨d, hd, hd'⟩ := h.depth_of_parent hp
    rw [hd, hd']
    rfl
  above_of_edge := by
    intro x y hxy
    exact (h.looked (hall x) (not_mem_places hpath x) y hxy).related

/-- Low values grow on the way down. -/
theorem Invariant.low_le_below (h : Invariant adjacency s) (hpath : s.path = []) {x y : Fin n}
    (hxy : Above s.parent.get x y) : s.low.get x ≤ s.low.get y := by
  induction hxy with
  | refl => exact le_refl _
  | tail _ hp ih => exact (h.low_le_child hp (not_mem_places hpath _)).trans ih

/-- At the end the low value of `c` tells how high the edges from its subtree reach, as far as it
    matters to its parent. -/
theorem Invariant.low_spec (h : Invariant adjacency s) (hpath : s.path = [])
    (hall : ∀ x, s.Discovered x) {c x : Fin n} {d : Nat} (hc : s.parent.get c = some x)
    (hd : s.depth.get x = some d) :
    d ≤ s.low.get c ↔ ∀ y z, Above s.parent.get c y → adjacency.Adj y z →
      d ≤ (s.depth.get z).getD 0 := by
  let T := h.forest hpath hall
  obtain ⟨d', hd', hdc⟩ := h.depth_of_parent hc
  obtain rfl : d' = d := Option.some.inj (hd'.symm.trans hd)
  constructor
  · intro hlow y z hcy hyz
    have down := T.depth_le hcy
    obtain ⟨e, he⟩ := hall z
    rw [he, Option.getD_some]
    by_cases hparent : s.parent.get y = some z
    · -- the parent of `y` is no higher than the parent of `c`
      have step := T.depth_of_parent hparent
      simp only [T, forest, he, hdc, Option.getD_some] at step down
      omega
    · have hz : z ∈ adjacency.get y := hyz
      have looked := h.looked (hall y) (not_mem_places hpath y) z hz
      exact (hlow.trans (h.low_le_below hpath hcy)).trans (looked.low_le hparent e he)
  · intro hout
    -- the low value is the depth of `c` itself, or one that an edge attains
    rcases h.low_attained (hall c) with hself | ⟨y, z, hcy, hyz, hlow⟩
    · rw [hdc] at hself
      have := Option.some.inj hself
      omega
    · have := hout y z hcy hyz
      rwa [hlow, Option.getD_some] at this

/-- At the end the places that count as cut vertices are those that separate others. -/
theorem Invariant.isCut_iff_separates (h : Invariant adjacency s) (hsymm : adjacency.IsSymmetric)
    (hpath : s.path = []) (hall : ∀ x, s.Discovered x) (x : Fin n) :
    s.IsCut x ↔ Separates adjacency.Adj x := by
  let T := h.forest hpath hall
  have : Std.Symm adjacency.Adj := ⟨hsymm⟩
  unfold IsCut
  split
  · next hroot =>
    -- a root separates others iff it has two children
    rw [T.separates_root hroot, Finset.one_lt_card]
    constructor
    · rintro ⟨c, hc, d, hd, hne⟩
      exact ⟨c, d, hne, mem_children.mp hc, mem_children.mp hd⟩
    · rintro ⟨c, d, hne, hc, hd⟩
      exact ⟨c, mem_children.mpr hc, d, mem_children.mpr hd, hne⟩
  · next hinner =>
    obtain ⟨p, hp⟩ := Option.ne_none_iff_exists'.mp hinner
    obtain ⟨d, hd⟩ := hall x
    -- any other place does iff it has a child from below which no edge leads above it
    rw [T.separates_inner hp]
    apply exists_congr
    intro c
    rw [mem_children]
    apply and_congr_right
    intro hc
    have depth_x : T.depth x = d := by simp only [T, forest, hd, Option.getD_some]
    rw [depth_x]
    refine Iff.trans ?_ (h.low_spec hpath hall hc hd)
    constructor
    · rintro ⟨d', hd', hlow⟩
      rw [hd] at hd'
      exact Option.some.inj hd' ▸ hlow
    · exact fun hlow => ⟨d, hd, hlow⟩

end LowLink

/-! ### The cut vertices found -/

section

variable {n : Nat} {adjacency : Adjacency n}

/-- What the searches from all places leave behind. -/
theorem Adjacency.invariant_search (hsymm : adjacency.IsSymmetric) :
    ∃ s : LowLink n, adjacency.cutVertices = s.points.reverse ∧ LowLink.Invariant adjacency s ∧
      s.path = [] ∧ ∀ x, s.Discovered x := by
  obtain ⟨hinv, hpath, hfound⟩ :=
    LowLink.invariant_start.foldl_searchNew hsymm rfl (List.finRange n)
  exact ⟨_, rfl, hinv, hpath, fun x => hfound x (Or.inr (List.mem_finRange x))⟩

/-- **The search finds the places that separate others.** -/
theorem Adjacency.mem_cutVertices (hsymm : adjacency.IsSymmetric) (x : Fin n) :
    x ∈ adjacency.cutVertices ↔ Separates adjacency.Adj x := by
  obtain ⟨s, heq, hinv, hpath, hall⟩ := Adjacency.invariant_search hsymm
  have hx := LowLink.not_mem_places hpath x
  rw [heq, List.mem_reverse, hinv.mem_points, ← hinv.isCut_iff_separates hsymm hpath hall]
  exact ⟨fun h => h.2.2, fun h => ⟨hall x, hx, h⟩⟩

/-- No place is found twice. -/
theorem Adjacency.nodup_cutVertices (hsymm : adjacency.IsSymmetric) :
    adjacency.cutVertices.Nodup := by
  obtain ⟨s, heq, hinv, -⟩ := Adjacency.invariant_search hsymm
  rw [heq, List.nodup_reverse]
  exact hinv.points_nodup

end

end Drafting
