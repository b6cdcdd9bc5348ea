import Drafting.Proofs.LowLink.Invariant

namespace Drafting

/-!
# Entering a place keeps the invariant of the low-link search

* `Entry` — what the search knows when it comes to a new place;
* `Entry.invariant_enter` — the invariant afterwards, if the visits below agree with the tables;
* `Invariant.enter_root`, `Invariant.enter_child` — the two occasions on which a place is entered.
-/

namespace LowLink

variable {n : Nat} {adjacency : Adjacency n} {s : LowLink n}

/-- The place `next` can be entered: it is new, and it is a neighbour of the deepest place `q` of
    the path, if there is one, and one deeper than it.  The visits of `path` may differ from those
    made so far, but not in their places. -/
structure Entry (adjacency : Adjacency n) (s : LowLink n) (next : Fin n) (d : Nat)
    (q : Option (Fin n)) (path : List (Visit n)) : Prop where
  invariant : Invariant adjacency s
  new : s.depth.get next = none
  head : q = s.places.head?
  places : path.map Visit.place = s.places
  depth : ∀ {x}, q = some x → ∃ e, s.depth.get x = some e ∧ d = e + 1
  edge : ∀ {x}, q = some x → next ∈ adjacency.get x

section

variable {next : Fin n} {d : Nat} {q : Option (Fin n)} {path : List (Visit n)}

/-- What is discovered after a place has been entered. -/
theorem discovered_enter_cases {x : Fin n} (hx : (s.enter adjacency next d q path).Discovered x) :
    x = next ∨ s.Discovered x := by
  obtain ⟨c, hc⟩ := hx
  rw [get_depth_enter] at hc
  split at hc
  · next heq => exact Or.inl heq.symm
  · exact Or.inr ⟨c, hc⟩

/-- What has a parent after a place has been entered. -/
theorem parent_enter_cases {x y : Fin n}
    (hy : (s.enter adjacency next d q path).parent.get y = some x) :
    (y = next ∧ q = some x) ∨ s.parent.get y = some x := by
  rw [get_parent_enter] at hy
  split at hy
  · next heq => exact Or.inl ⟨heq.symm, hy⟩
  · exact Or.inr hy

/-- The new place is one more child of the deepest place so far. -/
theorem children_enter_head {x : Fin n} (hq : q = some x) :
    (s.enter adjacency next d q path).children x = insert next (s.children x) := by
  ext c
  by_cases hc : next = c
  · subst hc
    simp [mem_children, get_parent_enter, hq]
  · have hc' : c ≠ next := fun heq => hc heq.symm
    simp [mem_children, get_parent_enter, hc, hc']

end

namespace Entry

variable {next : Fin n} {d : Nat} {q : Option (Fin n)} {path : List (Visit n)}
variable (h : Entry adjacency s next d q path)
include h

theorem places_enter : (s.enter adjacency next d q path).places = next :: s.places := by
  rw [← h.places]
  rfl

/-- The new place is none of those discovered. -/
theorem ne_of_discovered {x : Fin n} (hx : s.Discovered x) : next ≠ x := by
  rintro rfl
  obtain ⟨e, he⟩ := hx
  rw [h.new] at he
  cases he

theorem not_mem_places : next ∉ s.places :=
  fun hmem => h.ne_of_discovered (h.invariant.discovered_place hmem) rfl

/-- A place on its way in is no child yet. -/
theorem not_mem_children (x : Fin n) : next ∉ s.children x :=
  fun hc => h.ne_of_discovered (h.invariant.discovered_child hc) rfl

/-- A place on its way in is no parent yet. -/
theorem children_eq_empty : s.children next = ∅ :=
  Finset.eq_empty_of_forall_notMem
    fun _ hc => h.ne_of_discovered (h.invariant.discovered_parent hc) rfl

theorem head_ne : q ≠ some next := by
  intro hq
  obtain ⟨e, he, -⟩ := h.depth hq
  exact h.ne_of_discovered ⟨e, he⟩ rfl

/-- Entering a new place changes nothing about those discovered before. -/
theorem extends_enter : Extends s (s.enter adjacency next d q path) where
  depth := by
    intro x e he
    rw [get_depth_enter, if_neg (h.ne_of_discovered ⟨e, he⟩), he]
  parent := by
    intro x y hy
    rw [get_parent_enter, if_neg, hy]
    rintro rfl
    exact h.not_mem_children y (mem_children.mpr hy)
  low := by
    intro x hx
    rw [get_low_enter, if_neg (h.ne_of_discovered hx)]

/-- All other places have the children that they had. -/
theorem children_enter {x : Fin n} (hq : q ≠ some x) :
    (s.enter adjacency next d q path).children x = s.children x := by
  ext c
  by_cases hc : next = c
  · subst hc
    have := h.not_mem_children x
    simp [mem_children, get_parent_enter, hq] at this ⊢
    exact this
  · simp [mem_children, get_parent_enter, hc]

theorem low_enter {x : Fin n} (hx : s.Discovered x) :
    (s.enter adjacency next d q path).low.get x = s.low.get x := by
  rw [get_low_enter, if_neg (h.ne_of_discovered hx)]

/-- The first visit of the new place. -/
theorem visitOk_new : VisitOk adjacency (s.enter adjacency next d q path)
    ⟨next, d, adjacency.get next, 0, false⟩ where
  depth := by rw [get_depth_enter, if_pos rfl]
  children := by rw [h.children_enter h.head_ne, h.children_eq_empty, Finset.card_empty]
  isCut := by simp [h.children_enter h.head_ne, h.children_eq_empty]
  looked := ⟨[], rfl, by simp⟩

/-- The visits of places that get no new child. -/
theorem visitOk_old {v : Visit n} (hv : VisitOk adjacency s v) (hq : q ≠ some v.place) :
    VisitOk adjacency (s.enter adjacency next d q path) v := by
  refine h.extends_enter.visitOk hv (h.children_enter hq) fun c hc => ?_
  have hdisc := h.invariant.discovered_child hc
  have hne : c ≠ next := fun heq => h.ne_of_discovered hdisc heq.symm
  refine ⟨?_, fun _ => h.low_enter hdisc⟩
  rw [h.places_enter, List.mem_cons, not_or]
  exact ⟨fun hc' => hc'.2, fun hc' => ⟨hne, hc'⟩⟩

/-- Low values go on to be attained: by the place itself or by an edge from its subtree. -/
theorem low_attained_enter {x : Fin n} (hx : (s.enter adjacency next d q path).Discovered x) :
    (s.enter adjacency next d q path).depth.get x
        = some ((s.enter adjacency next d q path).low.get x) ∨
      ∃ y w, Above (s.enter adjacency next d q path).parent.get x y ∧ w ∈ adjacency.get y ∧
        (s.enter adjacency next d q path).depth.get w
          = some ((s.enter adjacency next d q path).low.get x) := by
  have e := h.extends_enter
  rcases discovered_enter_cases hx with rfl | hold
  · rw [get_depth_enter, get_low_enter, if_pos rfl, if_pos rfl]
    exact Or.inl rfl
  · rw [h.low_enter hold]
    rcases h.invariant.low_attained hold with hself | ⟨y, w, hy, hw, hlow⟩
    · exact Or.inl (e.depth hself)
    · exact Or.inr ⟨y, w, e.above hy, hw, e.depth hlow⟩

/-- A place that has been left does not become a cut vertex, nor stop being one. -/
theorem isCut_enter {p : Fin n} (hp : s.Discovered p) (hp' : p ∉ s.places) :
    (s.enter adjacency next d q path).IsCut p ↔ s.IsCut p := by
  have hne := h.ne_of_discovered hp
  have hq : q ≠ some p := by
    intro hq
    exact hp' (List.mem_of_mem_head? (h.head ▸ hq))
  refine isCut_congr ?_ (h.children_enter hq) ?_ fun c hc =>
    h.low_enter (h.invariant.discovered_child hc)
  · rw [get_parent_enter, if_neg hne]
  · rw [get_depth_enter, if_neg hne]

/-- The path goes on to be a branch of the tree. -/
theorem branch_enter : IsBranch (s.enter adjacency next d q path).parent.get
    (s.enter adjacency next d q path).places := by
  rw [h.places_enter]
  refine (h.invariant.branch.congr fun x hx => ?_).cons ?_
  · rw [get_parent_enter, if_neg]
    rintro rfl
    exact h.not_mem_places hx
  · rw [get_parent_enter, if_pos rfl, h.head]

/-- A child goes on to be one deeper than its parent. -/
theorem depth_of_parent_enter {x y : Fin n}
    (hy : (s.enter adjacency next d q path).parent.get y = some x) :
    ∃ c, (s.enter adjacency next d q path).depth.get x = some c ∧
      (s.enter adjacency next d q path).depth.get y = some (c + 1) := by
  have e := h.extends_enter
  rcases parent_enter_cases hy with ⟨rfl, hq⟩ | hold
  · obtain ⟨c, hc, rfl⟩ := h.depth hq
    exact ⟨c, e.depth hc, by rw [get_depth_enter, if_pos rfl]⟩
  · obtain ⟨c, hc, hc'⟩ := h.invariant.depth_of_parent hold
    exact ⟨c, e.depth hc, e.depth hc'⟩

/-- The cut vertices recorded go on to be those among the places that have been left. -/
theorem mem_points_enter (p : Fin n) : p ∈ s.points ↔
    (s.enter adjacency next d q path).Discovered p ∧
      p ∉ (s.enter adjacency next d q path).places ∧ (s.enter adjacency next d q path).IsCut p := by
  rw [h.invariant.mem_points, h.places_enter, List.mem_cons, not_or]
  constructor
  · rintro ⟨hp, hp', hcut⟩
    exact ⟨h.extends_enter.discovered hp,
      ⟨fun heq => h.ne_of_discovered hp heq.symm, hp'⟩, (h.isCut_enter hp hp').mpr hcut⟩
  · rintro ⟨hp, ⟨hne, hp'⟩, hcut⟩
    have hold := (discovered_enter_cases hp).resolve_left hne
    exact ⟨hold, hp', (h.isCut_enter hold hp').mp hcut⟩

/-- **Entering a place** keeps the invariant, if the visits below it agree with the tables. -/
theorem invariant_enter
    (hvisits : ∀ v ∈ path, VisitOk adjacency (s.enter adjacency next d q path) v) :
    Invariant adjacency (s.enter adjacency next d q path) where
  branch := h.branch_enter
  nodup := by
    rw [h.places_enter]
    exact List.nodup_cons.mpr ⟨h.not_mem_places, h.invariant.nodup⟩
  visits := by
    intro v hv
    rcases List.mem_cons.mp hv with rfl | hv
    · exact h.visitOk_new
    · exact hvisits v hv
  depth_of_parent := h.depth_of_parent_enter
  edge_of_parent := by
    intro x y hy
    rcases parent_enter_cases hy with ⟨rfl, hq⟩ | hold
    · exact h.edge hq
    · exact h.invariant.edge_of_parent hold
  looked := by
    intro x hx hx' w hw
    -- what has been left is not the new place, and so it was known
    rw [h.places_enter, List.mem_cons, not_or] at hx'
    rcases discovered_enter_cases hx with rfl | hold
    · exact absurd rfl hx'.1
    · exact h.extends_enter.looked hold (h.invariant.looked hold hx'.2 w hw)
  low_le_child := by
    intro c x hc hc'
    rw [h.places_enter, List.mem_cons, not_or] at hc'
    rcases parent_enter_cases hc with ⟨rfl, -⟩ | hold
    · exact absurd rfl hc'.1
    · have hmem := mem_children.mpr hold
      rw [h.low_enter (h.invariant.discovered_parent hmem),
        h.low_enter (h.invariant.discovered_child hmem)]
      exact h.invariant.low_le_child hold hc'.2
  low_le_depth := by
    intro x c hc
    rw [get_depth_enter] at hc
    rw [get_low_enter]
    by_cases hx : next = x
    · rw [if_pos hx] at hc ⊢
      exact le_of_eq (Option.some.inj hc)
    · rw [if_neg hx] at hc ⊢
      exact h.invariant.low_le_depth hc
  low_attained := h.low_attained_enter
  mem_points := h.mem_points_enter
  points_nodup := h.invariant.points_nodup

end Entry

/-- A search starts at a new root when the path is empty. -/
theorem Invariant.enter_root (h : Invariant adjacency s) {root : Fin n}
    (hnew : s.depth.get root = none) (hpath : s.path = []) :
    Invariant adjacency (s.enter adjacency root 0 none []) := by
  have hplaces : s.places = [] := by rw [places, hpath, List.map_nil]
  have entry : Entry adjacency s root 0 none [] :=
    { invariant := h, new := hnew, head := by rw [hplaces, List.head?_nil]
      places := by rw [hplaces, List.map_nil]
      depth := by simp, edge := by simp }
  exact entry.invariant_enter (by simp)

/-- The visit of the deepest place so far, once the new place is its child. -/
theorem Entry.visitOk_parent {v : Visit n} {path : List (Visit n)} {next : Fin n} {d : Nat}
    {pending : List (Fin n)} (h : Entry adjacency s next d (some v.place) path)
    (hv : VisitOk adjacency s v) (hpending : v.pending = next :: pending) :
    VisitOk adjacency (s.enter adjacency next d (some v.place) path)
      { v with pending, children := v.children + 1 } := by
  have e := h.extends_enter
  refine { depth := e.depth hv.depth, children := ?_, isCut := ?_, looked := ?_ }
  · show v.children + 1 = _
    rw [children_enter_head rfl, Finset.card_insert_of_notMem (h.not_mem_children v.place),
      hv.children]
  · show v.isCut = true ↔ _
    rw [hv.isCut, children_enter_head rfl, h.places_enter]
    -- the new child is on the path, and the others are what they were
    constructor
    · rintro ⟨c, hc, hc', hlow⟩
      have hdisc := h.invariant.discovered_child hc
      refine ⟨c, Finset.mem_insert_of_mem hc, ?_, (h.low_enter hdisc).symm ▸ hlow⟩
      exact List.not_mem_cons_of_ne_of_not_mem (h.ne_of_discovered hdisc).symm hc'
    · rintro ⟨c, hc, hc', hlow⟩
      have hold := Finset.mem_of_mem_insert_of_ne hc (List.ne_of_not_mem_cons hc')
      refine ⟨c, hold, List.not_mem_of_not_mem_cons hc', ?_⟩
      exact h.low_enter (h.invariant.discovered_child hold) ▸ hlow
  · have discovered : (s.enter adjacency next d (some v.place) path).Discovered next :=
      ⟨d, by rw [get_depth_enter, if_pos rfl]⟩
    refine e.looked_next (v := v) hv hpending ⟨discovered, Or.inl ?_, ?_⟩
    · exact above_of_parent (by rw [get_parent_enter, if_pos rfl])
    · -- the new place is deeper than `v`, and so it does not bound the low value of `v`
      intro _ c hc
      obtain ⟨dv, hdv, hd⟩ := h.depth rfl
      rw [get_depth_enter, if_pos rfl] at hc
      have hc := Option.some.inj hc
      have := h.invariant.low_le_depth hdv
      rw [h.low_enter ⟨dv, hdv⟩]
      omega

/-- The search goes on from the deepest place to a new neighbour. -/
theorem Invariant.enter_child (h : Invariant adjacency s) {v : Visit n} {path : List (Visit n)}
    {next : Fin n} {pending : List (Fin n)} (hpath : s.path = v :: path)
    (hpending : v.pending = next :: pending) (hnew : s.depth.get next = none) :
    Invariant adjacency (s.enter adjacency next (v.depth + 1) (some v.place)
      ({ v with pending, children := v.children + 1 } :: path)) := by
  have hv := h.visitOk_head hpath
  have hplaces := places_cons hpath
  have entry : Entry adjacency s next (v.depth + 1) (some v.place)
      ({ v with pending, children := v.children + 1 } :: path) :=
    { invariant := h, new := hnew, head := by rw [hplaces, List.head?_cons]
      places := by rw [hplaces, List.map_cons]
      depth := by
        rintro x hx
        obtain rfl := Option.some.inj hx
        exact ⟨v.depth, hv.depth, rfl⟩
      edge := by
        rintro x hx
        obtain rfl := Option.some.inj hx
        exact hv.next_mem hpending }
  apply entry.invariant_enter
  intro u hu
  -- the visit that the place is entered from has one more child, the others are as before
  rcases List.mem_cons.mp hu with rfl | hu
  · exact entry.visitOk_parent hv hpending
  · -- no place is on the path twice, so that no other visit is one of `v.place`
    refine entry.visitOk_old (h.visitOk_below hpath hu) fun heq => ?_
    have nodup := h.nodup
    rw [hplaces, List.nodup_cons] at nodup
    exact nodup.1 (List.mem_map.mpr ⟨u, hu, (Option.some.inj heq).symm⟩)

end LowLink

end Drafting
