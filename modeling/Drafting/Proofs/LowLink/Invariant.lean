import Drafting.Graph.LowLink
import Drafting.Indices
import Drafting.Proofs.Graph.SearchForest

namespace Drafting

/-!
# The invariant of the low-link search

What holds of the state of the search after every step (`Invariant`):

* the places on the path are a branch of the search tree (`IsBranch`), the deepest place first;
* a neighbour that has been looked at is discovered, is above or below the place, and bounds its
  low value unless it is the parent (`Looked`);
* a low value is attained by the place itself or by an edge out of its subtree, and it bounds the
  low values of the children that have been left;
* a visit counts the children, and its flag tells whether one of those that have been left has a
  low value that reaches no higher than the place (`VisitOk`);
* the points found are those places left that are cut vertices by these rules (`IsCut`).

The search changes its tables only for the deepest place and the one above it, so that most of this
is carried over a step by `Extends`.
-/

/-- Each place has the next one as its parent; the last one is a root. -/
def IsBranch {α : Type*} (parent : α → Option α) : List α → Prop
  | [] => True
  | [x] => parent x = none
  | x :: y :: rest => parent x = some y ∧ IsBranch parent (y :: rest)

section Branch

variable {α : Type*} {parent parent' : α → Option α} {x y : α} {xs : List α}

theorem IsBranch.parent_head (h : IsBranch parent (x :: xs)) : parent x = xs.head? := by
  cases xs with
  | nil => exact h
  | cons y rest => exact h.1

theorem IsBranch.tail (h : IsBranch parent (x :: xs)) : IsBranch parent xs := by
  cases xs with
  | nil => trivial
  | cons y rest => exact h.2

/-- A branch goes on with a child of its first place. -/
theorem IsBranch.cons (h : IsBranch parent xs) (hx : parent x = xs.head?) :
    IsBranch parent (x :: xs) := by
  cases xs with
  | nil => exact hx
  | cons y rest => exact ⟨hx, h⟩

/-- A branch contains the parents of its places. -/
theorem IsBranch.parent_mem (h : IsBranch parent xs) (hy : y ∈ xs) (hx : parent y = some x) :
    x ∈ xs := by
  induction xs with
  | nil => cases hy
  | cons z rest ih =>
    rcases List.mem_cons.mp hy with rfl | hrest
    · have head := h.parent_head
      rw [hx] at head
      exact List.mem_cons_of_mem _ (List.mem_of_mem_head? head.symm)
    · exact List.mem_cons_of_mem _ (ih h.tail hrest)

/-- The places of a branch are above the first one. -/
theorem IsBranch.above (h : IsBranch parent (x :: xs)) (hy : y ∈ x :: xs) :
    Above parent y x := by
  induction xs generalizing x with
  | nil =>
    rw [List.mem_singleton.mp hy]
    exact .refl x
  | cons z rest ih =>
    rcases List.mem_cons.mp hy with rfl | hrest
    · exact .refl y
    · exact (ih h.tail hrest).trans (above_of_parent h.1)

/-- Whether places form a branch depends on their own parents only. -/
theorem IsBranch.congr (h : IsBranch parent xs) (heq : ∀ x ∈ xs, parent' x = parent x) :
    IsBranch parent' xs := by
  induction xs with
  | nil => trivial
  | cons z rest ih =>
    refine (ih h.tail fun x hx => heq x (List.mem_cons_of_mem _ hx)).cons ?_
    rw [heq z List.mem_cons_self, h.parent_head]

end Branch

namespace LowLink

variable {n : Nat} {adjacency : Adjacency n} {s s' : LowLink n}

/-! ### What the tables say after a change -/

theorem get_low_lower (p x : Fin n) (d : Nat) :
    (s.lower p d).low.get x = if p = x then min (s.low.get p) d else s.low.get x :=
  get_set _ _ _ _

theorem get_depth_enter (p x : Fin n) (d : Nat) (q : Option (Fin n)) (path : List (Visit n)) :
    (s.enter adjacency p d q path).depth.get x = if p = x then some d else s.depth.get x :=
  get_set _ _ _ _

theorem get_low_enter (p x : Fin n) (d : Nat) (q : Option (Fin n)) (path : List (Visit n)) :
    (s.enter adjacency p d q path).low.get x = if p = x then d else s.low.get x :=
  get_set _ _ _ _

theorem get_parent_enter (p x : Fin n) (d : Nat) (q : Option (Fin n)) (path : List (Visit n)) :
    (s.enter adjacency p d q path).parent.get x = if p = x then q else s.parent.get x :=
  get_set _ _ _ _

/-! ### The invariant -/

/-- The places on the path, the deepest one first. -/
def places (s : LowLink n) : List (Fin n) := s.path.map Visit.place

/-- The search has come to the place. -/
def Discovered (s : LowLink n) (x : Fin n) : Prop := ∃ d, s.depth.get x = some d

/-- The children of a place in the search tree, as far as they are discovered. -/
def children (s : LowLink n) (x : Fin n) : Finset (Fin n) := {c | s.parent.get c = some x}

theorem mem_children {x c : Fin n} : c ∈ s.children x ↔ s.parent.get c = some x := by
  simp [children]

/-- What is known of a neighbour `w` of `x` that has been looked at. -/
structure Looked (s : LowLink n) (x w : Fin n) : Prop where
  discovered : s.Discovered w
  related : Above s.parent.get x w ∨ Above s.parent.get w x
  low_le : s.parent.get x ≠ some w → ∀ d, s.depth.get w = some d → s.low.get x ≤ d

/-- A visit agrees with the tables. -/
structure VisitOk (adjacency : Adjacency n) (s : LowLink n) (v : Visit n) : Prop where
  depth : s.depth.get v.place = some v.depth
  children : v.children = (s.children v.place).card
  isCut : v.isCut = true ↔ ∃ c ∈ s.children v.place, c ∉ s.places ∧ v.depth ≤ s.low.get c
  looked : ∃ looked, adjacency.get v.place = looked ++ v.pending ∧
    ∀ w ∈ looked, s.Looked v.place w

/-- A root with two children, or a place below with a child that reaches no higher. -/
def IsCut (s : LowLink n) (x : Fin n) : Prop :=
  if s.parent.get x = none then 1 < (s.children x).card
  else ∃ c ∈ s.children x, ∃ d, s.depth.get x = some d ∧ d ≤ s.low.get c

/-- What holds after every step of the search. -/
structure Invariant (adjacency : Adjacency n) (s : LowLink n) : Prop where
  branch : IsBranch s.parent.get s.places
  nodup : s.places.Nodup
  visits : ∀ v ∈ s.path, VisitOk adjacency s v
  depth_of_parent : ∀ {x y}, s.parent.get y = some x →
    ∃ d, s.depth.get x = some d ∧ s.depth.get y = some (d + 1)
  edge_of_parent : ∀ {x y}, s.parent.get y = some x → y ∈ adjacency.get x
  looked : ∀ {x}, s.Discovered x → x ∉ s.places → ∀ w ∈ adjacency.get x, s.Looked x w
  low_le_child : ∀ {c x}, s.parent.get c = some x → c ∉ s.places → s.low.get x ≤ s.low.get c
  low_le_depth : ∀ {x d}, s.depth.get x = some d → s.low.get x ≤ d
  low_attained : ∀ {x}, s.Discovered x → s.depth.get x = some (s.low.get x) ∨
    ∃ y w, Above s.parent.get x y ∧ w ∈ adjacency.get y ∧ s.depth.get w = some (s.low.get x)
  mem_points : ∀ p, p ∈ s.points ↔ s.Discovered p ∧ p ∉ s.places ∧ s.IsCut p
  points_nodup : s.points.Nodup

theorem places_cons {v : Visit n} {path : List (Visit n)} (h : s.path = v :: path) :
    s.places = v.place :: path.map Visit.place := by rw [places, h, List.map_cons]

theorem not_mem_places (h : s.path = []) (x : Fin n) : x ∉ s.places := by
  rw [places, h]
  exact List.not_mem_nil

theorem head_mem_places {v : Visit n} {path : List (Visit n)} (h : s.path = v :: path) :
    v.place ∈ s.places := by
  rw [places_cons h]
  exact List.mem_cons_self

/-- The neighbour that a visit looks at next. -/
theorem VisitOk.next_mem {v : Visit n} {next : Fin n} {pending : List (Fin n)}
    (h : VisitOk adjacency s v) (hpending : v.pending = next :: pending) :
    next ∈ adjacency.get v.place := by
  obtain ⟨looked, hadj, -⟩ := h.looked
  rw [hadj, hpending]
  exact List.mem_append_right _ List.mem_cons_self

/-- Whether a place counts as a cut vertex hangs on its own entries and on the low values of its
    children. -/
theorem isCut_congr {p : Fin n} (hparent : s'.parent.get p = s.parent.get p)
    (hchildren : s'.children p = s.children p) (hdepth : s'.depth.get p = s.depth.get p)
    (hlow : ∀ c ∈ s.children p, s'.low.get c = s.low.get c) : s'.IsCut p ↔ s.IsCut p := by
  unfold IsCut
  rw [hparent, hchildren, hdepth]
  split
  · exact Iff.rfl
  · refine exists_congr fun c => and_congr_right fun hc => ?_
    rw [hlow c hc]

namespace Invariant

theorem visitOk_head (h : Invariant adjacency s) {v : Visit n} {path : List (Visit n)}
    (hpath : s.path = v :: path) : VisitOk adjacency s v :=
  h.visits v (by rw [hpath]; exact List.mem_cons_self)

theorem visitOk_below (h : Invariant adjacency s) {v u : Visit n} {path : List (Visit n)}
    (hpath : s.path = v :: path) (hu : u ∈ path) : VisitOk adjacency s u :=
  h.visits u (by rw [hpath]; exact List.mem_cons_of_mem _ hu)

theorem discovered_child (h : Invariant adjacency s) {x c : Fin n} (hc : c ∈ s.children x) :
    s.Discovered c := by
  obtain ⟨d, -, hd⟩ := h.depth_of_parent (mem_children.mp hc)
  exact ⟨d + 1, hd⟩

theorem discovered_parent (h : Invariant adjacency s) {x c : Fin n} (hc : c ∈ s.children x) :
    s.Discovered x := by
  obtain ⟨d, hd, -⟩ := h.depth_of_parent (mem_children.mp hc)
  exact ⟨d, hd⟩

theorem discovered_place (h : Invariant adjacency s) {x : Fin n} (hx : x ∈ s.places) :
    s.Discovered x := by
  obtain ⟨v, hv, rfl⟩ := List.mem_map.mp hx
  exact ⟨v.depth, (h.visits v hv).depth⟩

/-- Children of places that are not on the path are not on it. -/
theorem child_not_mem (h : Invariant adjacency s) {x c : Fin n} (hx : x ∉ s.places)
    (hc : c ∈ s.children x) : c ∉ s.places :=
  fun hmem => hx (h.branch.parent_mem hmem (mem_children.mp hc))

/-- No child of the deepest place is on the path. -/
theorem child_of_head_not_mem (h : Invariant adjacency s) {v : Visit n} {path : List (Visit n)}
    (hpath : s.path = v :: path) {c : Fin n} (hc : c ∈ s.children v.place) : c ∉ s.places := by
  have nodup := h.nodup
  have branch := h.branch
  rw [places_cons hpath] at nodup branch ⊢
  intro hmem
  rcases List.mem_cons.mp hmem with rfl | hrest
  · -- no place is its own parent, because depths differ
    obtain ⟨d, hd, hd'⟩ := h.depth_of_parent (mem_children.mp hc)
    rw [hd] at hd'
    have := Option.some.inj hd'
    omega
  · exact (List.nodup_cons.mp nodup).1 (branch.tail.parent_mem hrest (mem_children.mp hc))

end Invariant

/-! ### What a step keeps -/

/-- Depths and parents stay once they are known, and low values of discovered places only fall. -/
structure Extends (s s' : LowLink n) : Prop where
  depth : ∀ {x d}, s.depth.get x = some d → s'.depth.get x = some d
  parent : ∀ {x y}, s.parent.get x = some y → s'.parent.get x = some y
  low : ∀ {x}, s.Discovered x → s'.low.get x ≤ s.low.get x

namespace Extends

variable (e : Extends s s')
include e

theorem discovered {x : Fin n} (h : s.Discovered x) : s'.Discovered x := by
  obtain ⟨d, hd⟩ := h
  exact ⟨d, e.depth hd⟩

theorem above {x y : Fin n} (h : Above s.parent.get x y) : Above s'.parent.get x y :=
  h.mono fun _ _ hp => e.parent hp

/-- An edge that has been looked at stays one as the search goes on. -/
theorem looked {x w : Fin n} (hx : s.Discovered x) (h : s.Looked x w) : s'.Looked x w where
  discovered := e.discovered h.discovered
  related := h.related.imp e.above e.above
  low_le := by
    intro hne d hd
    obtain ⟨d', hd'⟩ := h.discovered
    -- the depth of `w` was known, and it has stayed
    obtain rfl : d' = d := Option.some.inj ((e.depth hd').symm.trans hd)
    exact (e.low hx).trans (h.low_le (fun hp => hne (e.parent hp)) d' hd')

/-- A visit still agrees with the tables if its children are the same, and those of them that have
    been left have kept their low values. -/
theorem visitOk {v : Visit n} (h : VisitOk adjacency s v)
    (hchildren : s'.children v.place = s.children v.place)
    (hleft : ∀ c ∈ s.children v.place, (c ∉ s'.places ↔ c ∉ s.places) ∧
      (c ∉ s.places → s'.low.get c = s.low.get c)) : VisitOk adjacency s' v where
  depth := e.depth h.depth
  children := by rw [hchildren, h.children]
  isCut := by
    rw [h.isCut, hchildren]
    refine exists_congr fun c => and_congr_right fun hc => ?_
    obtain ⟨hmem, hlow⟩ := hleft c hc
    constructor
    · rintro ⟨hc', hd⟩
      exact ⟨hmem.mpr hc', (hlow hc').symm ▸ hd⟩
    · rintro ⟨hc', hd⟩
      exact ⟨hmem.mp hc', hlow (hmem.mp hc') ▸ hd⟩
  looked := by
    obtain ⟨looked, hadj, hlooked⟩ := h.looked
    exact ⟨looked, hadj, fun w hw => e.looked ⟨_, h.depth⟩ (hlooked w hw)⟩

/-- One more neighbour has been looked at. -/
theorem looked_next {v : Visit n} {next : Fin n} {pending : List (Fin n)}
    (h : VisitOk adjacency s v) (hpending : v.pending = next :: pending)
    (hnext : s'.Looked v.place next) : ∃ looked, adjacency.get v.place = looked ++ pending ∧
      ∀ w ∈ looked, s'.Looked v.place w := by
  obtain ⟨looked, hadj, hlooked⟩ := h.looked
  refine ⟨looked ++ [next], by rw [hadj, hpending, List.append_cons], fun w hw => ?_⟩
  rcases List.mem_append.mp hw with hw | hw
  · exact e.looked ⟨_, h.depth⟩ (hlooked w hw)
  · rw [List.mem_singleton.mp hw]
    exact hnext

end Extends

end LowLink

end Drafting
