import Drafting.Proofs.LowLink.Invariant

namespace Drafting

/-!
# Looking at an edge and leaving a place keep the invariant of the low-link search

Neither of the two discovers a place, and each of them lowers at most one low value (`Lowers`).

* `Invariant.see` — the neighbour looked at is discovered already.  The neighbours have to be listed
  on both sides (`Adjacency.IsSymmetric`): an edge to a place that has been left was looked at from
  its other end, which is how it is known to join a place and an ancestor;
* `Invariant.leave_root`, `Invariant.leave_child` — all neighbours have been looked at.
-/

/-- Neighbours are listed on both sides. -/
def Adjacency.IsSymmetric {n : Nat} (adjacency : Adjacency n) : Prop :=
  ∀ x y, y ∈ adjacency.get x → x ∈ adjacency.get y

namespace LowLink

variable {n : Nat} {adjacency : Adjacency n} {s s' : LowLink n}

/-- The low value of `p` falls, and no other entry of the tables changes. -/
structure Lowers (s s' : LowLink n) (p : Fin n) : Prop where
  depth : s'.depth = s.depth
  parent : s'.parent = s.parent
  low_ne : ∀ {x}, x ≠ p → s'.low.get x = s.low.get x
  low_le : s'.low.get p ≤ s.low.get p

namespace Lowers

variable {p : Fin n} (l : Lowers s s' p)
include l

/-- Low values do not grow. -/
theorem low_le_low (x : Fin n) : s'.low.get x ≤ s.low.get x := by
  by_cases hx : x = p
  · rw [hx]
    exact l.low_le
  · rw [l.low_ne hx]

theorem extends_of_lowers : Extends s s' where
  depth := fun h => by rw [l.depth, h]
  parent := fun h => by rw [l.parent, h]
  low := fun _ => l.low_le_low _

theorem discovered_iff {x : Fin n} : s'.Discovered x ↔ s.Discovered x := by
  unfold Discovered
  rw [l.depth]

theorem children_eq (x : Fin n) : s'.children x = s.children x := by
  unfold children
  rw [l.parent]

theorem above_iff {x y : Fin n} : Above s'.parent.get x y ↔ Above s.parent.get x y := by
  rw [l.parent]

/-- Places whose children keep their low values count as cut vertices as before. -/
theorem isCut_iff {x : Fin n} (hp : p ∉ s.children x) : s'.IsCut x ↔ s.IsCut x :=
  isCut_congr (by rw [l.parent]) (l.children_eq x) (by rw [l.depth])
    fun _ hc => l.low_ne fun heq => hp (heq ▸ hc)

/-- Visits stay in order if `p` and the places that leave the path are none of their children. -/
theorem visitOk {v : Visit n} (hv : VisitOk adjacency s v)
    (hpath : ∀ c ∈ s.children v.place, (c ∉ s'.places ↔ c ∉ s.places) ∧ (c ∉ s.places → c ≠ p)) :
    VisitOk adjacency s' v :=
  l.extends_of_lowers.visitOk hv (l.children_eq _) fun c hc =>
    ⟨(hpath c hc).1, fun hc' => l.low_ne ((hpath c hc).2 hc')⟩

/-- The invariant carries over, apart from what is special about `p` and the visits. -/
theorem invariant (h : Invariant adjacency s) (hbranch : IsBranch s.parent.get s'.places)
    (hnodup : s'.places.Nodup) (hvisits : ∀ v ∈ s'.path, VisitOk adjacency s' v)
    (hlooked : ∀ {x}, s.Discovered x → x ∉ s'.places → ∀ w ∈ adjacency.get x, s.Looked x w)
    (hchild : ∀ {c x}, s.parent.get c = some x → c ∉ s'.places → s'.low.get x ≤ s'.low.get c)
    (hattained : s.Discovered p → s.depth.get p = some (s'.low.get p) ∨
      ∃ y w, Above s.parent.get p y ∧ w ∈ adjacency.get y ∧ s.depth.get w = some (s'.low.get p))
    (hpoints : ∀ x, x ∈ s'.points ↔ s.Discovered x ∧ x ∉ s'.places ∧ s'.IsCut x)
    (hpoints_nodup : s'.points.Nodup) : Invariant adjacency s' where
  branch := by rwa [l.parent]
  nodup := hnodup
  visits := hvisits
  depth_of_parent := by
    rw [l.parent, l.depth]
    exact h.depth_of_parent
  edge_of_parent := by
    rw [l.parent]
    exact h.edge_of_parent
  looked := fun hx hx' w hw =>
    l.extends_of_lowers.looked (l.discovered_iff.mp hx) (hlooked (l.discovered_iff.mp hx) hx' w hw)
  low_le_child := by
    rw [l.parent]
    exact hchild
  low_le_depth := fun {x d} hd =>
    (l.low_le_low x).trans (h.low_le_depth (by rwa [l.depth] at hd))
  low_attained := by
    intro x hx
    rw [l.parent, l.depth]
    -- no low link has changed but that of `p`
    by_cases hxp : x = p
    · rw [hxp]
      exact hattained (l.discovered_iff.mp (hxp ▸ hx))
    · rw [l.low_ne hxp]
      exact h.low_attained (l.discovered_iff.mp hx)
  mem_points := fun x => by rw [hpoints, l.discovered_iff]
  points_nodup := hpoints_nodup

end Lowers

/-- A neighbour of the deepest place that is discovered is above or below it. -/
theorem Invariant.related (h : Invariant adjacency s) (hsymm : adjacency.IsSymmetric)
    {v : Visit n} {path : List (Visit n)} {w : Fin n} (hpath : s.path = v :: path)
    (hw : s.Discovered w) (hedge : w ∈ adjacency.get v.place) :
    Above s.parent.get v.place w ∨ Above s.parent.get w v.place := by
  by_cases hmem : w ∈ s.places
  · have branch := h.branch
    rw [places_cons hpath] at branch hmem
    exact Or.inr (branch.above hmem)
  · -- the edge was looked at from `w`
    exact (h.looked hw hmem _ (hsymm _ _ hedge)).related.symm

/-- **Looking at an edge** to a place already discovered keeps the invariant. -/
theorem Invariant.see (h : Invariant adjacency s) (hsymm : adjacency.IsSymmetric)
    {v : Visit n} {path : List (Visit n)} {next : Fin n} {pending : List (Fin n)} {d : Nat}
    (hpath : s.path = v :: path) (hpending : v.pending = next :: pending)
    (hd : s.depth.get next = some d) (l : Lowers s s' v.place)
    (hpath' : s'.path = { v with pending } :: path) (hpoints : s'.points = s.points)
    (hlow : s'.low.get v.place = s.low.get v.place ∨ s'.low.get v.place = d)
    (hskip : s.parent.get v.place ≠ some next → s'.low.get v.place ≤ d) :
    Invariant adjacency s' := by
  have hv := h.visitOk_head hpath
  have hedge := hv.next_mem hpending
  have hmem := head_mem_places hpath
  have hplaces : s'.places = s.places := by
    rw [places_cons hpath, places_cons hpath']
  have hseen : s'.Looked v.place next :=
    { discovered := l.discovered_iff.mpr ⟨d, hd⟩
      related := by
        rw [l.above_iff, l.above_iff]
        exact h.related hsymm hpath ⟨d, hd⟩ hedge
      low_le := by
        intro hne c hc
        rw [l.parent] at hne
        rw [l.depth, hd] at hc
        exact Option.some.inj hc ▸ hskip hne }
  -- the only low value that may fall is that of a place on the path
  have same : ∀ u : Visit n, ∀ c ∈ s.children u.place,
      (c ∉ s'.places ↔ c ∉ s.places) ∧ (c ∉ s.places → c ≠ v.place) := by
    intro u c _
    rw [hplaces]
    exact ⟨Iff.rfl, fun hc heq => hc (heq ▸ hmem)⟩
  refine l.invariant h (hplaces ▸ h.branch) (hplaces ▸ h.nodup) ?_ ?_ ?_ ?_ ?_ ?_
  · intro u hu
    rw [hpath'] at hu
    rcases List.mem_cons.mp hu with rfl | hu
    · have hv' := l.visitOk hv (same v)
      exact { depth := hv'.depth, children := hv'.children, isCut := hv'.isCut
              looked := l.extends_of_lowers.looked_next (v := v) hv hpending hseen }
    · exact l.visitOk (h.visitOk_below hpath hu) (same u)
  · intro x hx hx'
    exact h.looked hx (hplaces ▸ hx')
  · intro c x hc hc'
    rw [hplaces] at hc'
    have hne : c ≠ v.place := fun heq => hc' (heq ▸ hmem)
    rw [l.low_ne hne]
    exact (l.low_le_low x).trans (h.low_le_child hc hc')
  · intro hdisc
    rcases hlow with heq | heq
    · rw [heq]
      exact h.low_attained hdisc
    · rw [heq]
      -- the edge that lowers the low value also attains it
      exact Or.inr ⟨v.place, next, .refl _, hedge, hd⟩
  · intro x
    rw [hpoints, hplaces, h.mem_points]
    refine and_congr_right fun _ => and_congr_right fun hx => ?_
    exact (l.isCut_iff fun hc => h.child_not_mem hx hc hmem).symm
  · rw [hpoints]
    exact h.points_nodup

/-- The search takes the deepest place for a cut vertex iff the tables say so. -/
theorem Invariant.isPoint_iff (h : Invariant adjacency s) {v : Visit n} {path : List (Visit n)}
    (hpath : s.path = v :: path) : s.isPoint v = true ↔ s.IsCut v.place := by
  have hv := h.visitOk_head hpath
  unfold isPoint IsCut
  by_cases hroot : s.parent.get v.place = none
  · simp [hroot, hv.children]
  · rw [if_neg (by simpa using hroot), if_neg hroot, hv.isCut]
    refine exists_congr fun c => and_congr_right fun hc => ?_
    have hleft := h.child_of_head_not_mem hpath hc
    constructor
    · rintro ⟨-, hlow⟩
      exact ⟨v.depth, hv.depth, hlow⟩
    · rintro ⟨d, hd, hlow⟩
      rw [hv.depth] at hd
      exact ⟨hleft, Option.some.inj hd ▸ hlow⟩

/-- The points after the deepest place has been left. -/
theorem Invariant.mem_points_leave (h : Invariant adjacency s) {v : Visit n}
    {path : List (Visit n)} (hpath : s.path = v :: path) (x : Fin n) :
    x ∈ (if s.isPoint v = true then v.place :: s.points else s.points) ↔
      s.Discovered x ∧ x ∉ path.map Visit.place ∧ s.IsCut x := by
  have hplaces := places_cons hpath
  have nodup := h.nodup
  have hmem := head_mem_places hpath
  have hpoint := h.isPoint_iff hpath
  have hold := h.mem_points x
  rw [hplaces, List.nodup_cons] at nodup
  rw [hplaces, List.mem_cons, not_or] at hold
  -- `v` was on the path, and hence not among the points
  by_cases hx : x = v.place
  · subst hx
    split
    · next hcut => simp [hpoint.mp hcut, h.discovered_place hmem, nodup.1]
    · next hcut => simp [hold, mt hpoint.mpr hcut]
  · split <;> simp [hold, hx]

/-- A place is recorded once, as it is left once. -/
theorem Invariant.points_nodup_leave (h : Invariant adjacency s) {v : Visit n}
    {path : List (Visit n)} (hpath : s.path = v :: path) :
    (if s.isPoint v = true then v.place :: s.points else s.points).Nodup := by
  split
  · -- a point has been left, but `v` has not
    refine List.nodup_cons.mpr ⟨fun hmem => ?_, h.points_nodup⟩
    exact ((h.mem_points _).mp hmem).2.1 (head_mem_places hpath)
  · exact h.points_nodup

/-- The edges of the deepest place have all been looked at when it is left. -/
theorem Invariant.looked_leave (h : Invariant adjacency s) {v : Visit n} {path : List (Visit n)}
    (hpath : s.path = v :: path) (hpending : v.pending = []) {x : Fin n} (hx : s.Discovered x)
    (hx' : x ∉ path.map Visit.place) (w : Fin n) (hw : w ∈ adjacency.get x) : s.Looked x w := by
  by_cases hxv : x = v.place
  · subst hxv
    obtain ⟨looked, hadj, hlooked⟩ := (h.visitOk_head hpath).looked
    rw [hadj, hpending, List.append_nil] at hw
    exact hlooked w hw
  · refine h.looked hx ?_ w hw
    rw [places_cons hpath]
    exact List.not_mem_cons_of_ne_of_not_mem hxv hx'

/-- Leaving a root keeps the invariant. -/
theorem Invariant.leave_root (h : Invariant adjacency s) {v : Visit n} (hpath : s.path = [v])
    (hpending : v.pending = []) : Invariant adjacency (s.leave v []) := by
  have l : Lowers s (s.leave v []) v.place := ⟨rfl, rfl, fun _ => rfl, le_refl _⟩
  have branch := h.branch
  rw [places_cons hpath] at branch
  have hroot : s.parent.get v.place = none := branch.parent_head
  -- a root is no child, and so its low value does not matter to the others
  have hchild : ∀ x, v.place ∉ s.children x := by
    intro x hx
    rw [mem_children, hroot] at hx
    cases hx
  refine l.invariant h trivial List.nodup_nil (fun _ hv => absurd hv List.not_mem_nil)
    (fun hx hx' => h.looked_leave hpath hpending hx hx') ?_ h.low_attained ?_
    (h.points_nodup_leave hpath)
  · intro c x hc _
    apply h.low_le_child hc
    rw [places_cons hpath]
    rintro hmem
    rw [List.mem_singleton.mp hmem] at hc
    exact hchild x (mem_children.mpr hc)
  · intro x
    rw [l.isCut_iff (hchild x)]
    exact h.mem_points_leave hpath x

section LeaveChild

variable {v up : Visit n} {above : List (Visit n)}

/-- The deepest place reports its low value to its parent. -/
theorem get_low_leave (x : Fin n) :
    (s.leave v (up :: above)).low.get x =
      if up.place = x then min (s.low.get up.place) (s.low.get v.place) else s.low.get x :=
  get_low_lower _ _ _

/-- Leaving a place lowers the low value of the place above, and nothing else. -/
theorem lowers_leave : Lowers s (s.leave v (up :: above)) up.place where
  depth := rfl
  parent := rfl
  low_ne := fun hx => by rw [get_low_leave, if_neg hx.symm]
  low_le := by
    rw [get_low_leave, if_pos rfl]
    exact min_le_left _ _

/-- The visit above agrees with the tables once the deepest place has reported to it. -/
theorem Invariant.visitOk_up (h : Invariant adjacency s) (hpath : s.path = v :: up :: above) :
    VisitOk adjacency (s.leave v (up :: above))
      { up with isCut := up.isCut || decide (up.depth ≤ s.low.get v.place) } := by
  have l : Lowers s (s.leave v (up :: above)) up.place := lowers_leave
  have hplaces : s.places = v.place :: up.place :: above.map Visit.place := by
    rw [places_cons hpath, List.map_cons]
  have nodup := h.nodup
  have branch := h.branch
  rw [hplaces] at nodup branch
  have hv : v.place ∈ s.children up.place := mem_children.mpr branch.1
  have hup := h.visitOk_below hpath List.mem_cons_self
  obtain ⟨looked, hadj, hlooked⟩ := hup.looked
  refine { depth := hup.depth, children := ?_, isCut := ?_, looked := ?_ }
  · rw [l.children_eq]
    exact hup.children
  · rw [Bool.or_eq_true, hup.isCut, decide_eq_true_eq, l.children_eq]
    -- the child that has been left now is `v`
    constructor
    · rintro (⟨c, hc, hc', hlow⟩ | hlow)
      · rw [hplaces] at hc'
        refine ⟨c, hc, List.not_mem_of_not_mem_cons hc', ?_⟩
        rwa [l.low_ne (List.ne_of_not_mem_cons (List.not_mem_of_not_mem_cons hc'))]
      · refine ⟨v.place, hv, (List.nodup_cons.mp nodup).1, ?_⟩
        rwa [l.low_ne (List.ne_of_not_mem_cons (List.nodup_cons.mp nodup).1)]
    · rintro ⟨c, hc, hc', hlow⟩
      rw [l.low_ne (List.ne_of_not_mem_cons hc')] at hlow
      by_cases hcv : c = v.place
      · exact Or.inr (hcv ▸ hlow)
      · refine Or.inl ⟨c, hc, ?_, hlow⟩
        rw [hplaces]
        exact List.not_mem_cons_of_ne_of_not_mem hcv hc'
  · exact ⟨looked, hadj, fun w hw => l.extends_of_lowers.looked ⟨_, hup.depth⟩ (hlooked w hw)⟩

/-- The visits further up agree with the tables as before. -/
theorem Invariant.visitOk_above (h : Invariant adjacency s) (hpath : s.path = v :: up :: above)
    {u : Visit n} (hu : u ∈ above) : VisitOk adjacency (s.leave v (up :: above)) u := by
  have l : Lowers s (s.leave v (up :: above)) up.place := lowers_leave
  have hplaces : s.places = v.place :: up.place :: above.map Visit.place := by
    rw [places_cons hpath, List.map_cons]
  have nodup := h.nodup
  have branch := h.branch
  rw [hplaces] at nodup branch
  refine l.visitOk (h.visitOk_below hpath (List.mem_cons_of_mem _ hu)) fun c hc => ⟨?_, ?_⟩
  · -- `v` is a child of `up`, and of no other place
    have hcv : c ≠ v.place := by
      rintro rfl
      have heq : u.place = up.place := Option.some.inj ((mem_children.mp hc).symm.trans branch.1)
      exact (List.nodup_cons.mp (List.nodup_cons.mp nodup).2).1 (heq ▸ List.mem_map_of_mem hu)
    rw [hplaces]
    exact ⟨List.not_mem_cons_of_ne_of_not_mem hcv, List.not_mem_of_not_mem_cons⟩
  · rintro hc' rfl
    apply hc'
    rw [hplaces]
    exact List.mem_cons_of_mem _ List.mem_cons_self

/-- What `v` reports to `up` is attained by an edge out of the subtree of `up`. -/
theorem Invariant.low_attained_up (h : Invariant adjacency s)
    (hparent : s.parent.get v.place = some up.place) (hdisc : s.Discovered up.place) :
    s.depth.get up.place = some ((s.leave v (up :: above)).low.get up.place) ∨
      ∃ y w, Above s.parent.get up.place y ∧ w ∈ adjacency.get y ∧
        s.depth.get w = some ((s.leave v (up :: above)).low.get up.place) := by
  rw [get_low_leave, if_pos rfl]
  rcases Nat.le_or_ge (s.low.get up.place) (s.low.get v.place) with hle | hge
  · rw [Nat.min_eq_left hle]
    exact h.low_attained hdisc
  · rw [Nat.min_eq_right hge]
    obtain ⟨d, hd, hd'⟩ := h.depth_of_parent hparent
    have := h.low_le_depth hd
    rcases h.low_attained ⟨_, hd'⟩ with hself | ⟨y, w, hy, hw, hlow⟩
    · -- the low value of `v` is its depth only if that of `up` is less
      rw [hd'] at hself
      have := Option.some.inj hself
      omega
    · exact Or.inr ⟨y, w, (above_of_parent hparent).trans hy, hw, hlow⟩

/-- Leaving a place for the one above it keeps the invariant. -/
theorem Invariant.leave_child (h : Invariant adjacency s) (hpath : s.path = v :: up :: above)
    (hpending : v.pending = []) : Invariant adjacency (s.leave v (up :: above)) := by
  have l : Lowers s (s.leave v (up :: above)) up.place := lowers_leave
  have hplaces : s.places = v.place :: up.place :: above.map Visit.place := by
    rw [places_cons hpath, List.map_cons]
  have nodup := h.nodup
  have branch := h.branch
  rw [hplaces] at nodup branch
  refine l.invariant h branch.tail (List.nodup_cons.mp nodup).2 ?_
    (fun hx hx' => h.looked_leave hpath hpending hx hx') ?_ (h.low_attained_up branch.1) ?_
    (h.points_nodup_leave hpath)
  · intro u hu
    rcases List.mem_cons.mp hu with rfl | hu
    · exact h.visitOk_up hpath
    · exact h.visitOk_above hpath hu
  · intro c x hc hc'
    rw [l.low_ne (List.ne_of_not_mem_cons hc')]
    by_cases hcv : c = v.place
    · -- the low value of `v` is one of those that the minimum is taken of
      subst hcv
      obtain rfl : up.place = x := Option.some.inj (branch.1.symm.trans hc)
      rw [get_low_leave, if_pos rfl]
      exact min_le_right _ _
    · refine (l.low_le_low x).trans (h.low_le_child hc ?_)
      rw [hplaces]
      exact List.not_mem_cons_of_ne_of_not_mem hcv hc'
  · intro x
    have points := h.mem_points_leave hpath x
    refine points.trans (and_congr_right fun _ => and_congr_right fun hx => ?_)
    -- a place that is left by now has no child on the path
    refine (l.isCut_iff fun hc => hx ?_).symm
    exact branch.tail.parent_mem List.mem_cons_self (mem_children.mp hc)

end LeaveChild

end LowLink

end Drafting
