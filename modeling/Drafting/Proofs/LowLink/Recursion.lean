import Mathlib.Order.Nat
import Drafting.Graph.LowLink
import Drafting.Indices

namespace Drafting

/-!
# The low-link search as a recursion

The search for cut vertices as it is usually written down: to search a place, discover it, look at
its neighbours in the order in which they are listed, search each new one before the next one is
looked at, and record the place in the end if it is a cut vertex.  The calls that have not returned
take the place of a path.

* `SearchTables.scanBounded` — the recursion, with what makes it end: a scan discovers places, and
  forgets none;
* `SearchTables.visit` — the search of a place;
* `SearchTables.scan_nil`, `SearchTables.scan_known`, `SearchTables.scan_new` — the recursion as
  equations, and `SearchTables.scan_induction` — induction along it;
* `SearchTables.keeps_scan`, `SearchTables.keeps_visit` — what a search leaves as it is.
-/

/-- What a search writes down: depths, low values and parents of places, and the cut vertices in the
    order in which they are recorded. -/
structure SearchTables (n : Nat) where
  depth : Vector (Option Nat) n
  low : Vector Nat n
  parent : Vector (Option (Fin n)) n
  points : List (Fin n)

/-- How far the search of a place has come: the tables, how many children the place has so far, and
    whether the subtree of one of them stays below it. -/
structure Scan (n : Nat) where
  tables : SearchTables n
  children : Nat
  isCut : Bool

variable {n : Nat}

namespace SearchTables

/-- Nothing is discovered. -/
def empty : SearchTables n where
  depth := Vector.replicate n none
  low := Vector.replicate n 0
  parent := Vector.replicate n none
  points := []

/-- Discovers a place. -/
def discover (t : SearchTables n) (place : Fin n) (depth : Nat) (parent : Option (Fin n)) :
    SearchTables n :=
  { t with
    depth := t.depth.set place (some depth) place.isLt
    low := t.low.set place depth place.isLt
    parent := t.parent.set place parent place.isLt }

/-- Lowers the low value of a place to `depth`, if that is less. -/
def lower (t : SearchTables n) (place : Fin n) (depth : Nat) : SearchTables n :=
  { t with low := t.low.set place (min (t.low.get place) depth) place.isLt }

/-- How many places are not discovered. -/
def undiscovered (t : SearchTables n) : Nat := t.depth.countP (·.isNone)

/-- To discover a new place leaves fewer places undiscovered. -/
theorem undiscovered_discover {t : SearchTables n} {place : Fin n}
    (new : t.depth.get place = none) (depth : Nat) (parent : Option (Fin n)) :
    (t.discover place depth parent).undiscovered < t.undiscovered := by
  -- the machine discovers a place in the same way, whatever its neighbours and the path are
  let s : LowLink n := ⟨t.depth, t.low, t.parent, t.points, []⟩
  let apart : Adjacency n := Vector.replicate n []
  have entered : (s.enter apart place depth parent []).undiscovered < s.undiscovered :=
    LowLink.undiscovered_enter new depth parent []
  exact entered

end SearchTables

namespace Scan

/-- A place is discovered, and no neighbour is looked at. -/
def start (t : SearchTables n) (place : Fin n) (depth : Nat) (parent : Option (Fin n)) : Scan n :=
  ⟨t.discover place depth parent, 0, false⟩

/-- The neighbour `next` is known, at the depth `depth`.  It bounds the low value of the place,
    unless it is the parent. -/
def known (r : Scan n) (place : Fin n) (parent : Option (Fin n)) (next : Fin n) (depth : Nat) :
    Scan n :=
  if parent = some next then r else { r with tables := r.tables.lower place depth }

/-- The neighbour `next` was new, and its search has left the tables `t` behind. -/
def child (r : Scan n) (place : Fin n) (depth : Nat) (next : Fin n) (t : SearchTables n) :
    Scan n where
  tables := t.lower place (t.low.get next)
  children := r.children + 1
  isCut := r.isCut || depth ≤ t.low.get next

/-- Is a place whose neighbours have all been looked at a cut vertex?  A root is one if it has
    several children, any other place if the subtree of a child stays below it. -/
def isPoint (r : Scan n) (parent : Option (Fin n)) : Bool :=
  if parent.isNone then 1 < r.children else r.isCut

/-- Records the place if it is a cut vertex. -/
def finish (r : Scan n) (place : Fin n) (parent : Option (Fin n)) : SearchTables n :=
  if r.isPoint parent then { r.tables with points := r.tables.points ++ [place] } else r.tables

/-- A known neighbour leaves as many places undiscovered as before. -/
theorem undiscovered_known (r : Scan n) (place : Fin n) (parent : Option (Fin n)) (next : Fin n)
    (depth : Nat) :
    (r.known place parent next depth).tables.undiscovered = r.tables.undiscovered := by
  unfold known
  split <;> rfl

theorem undiscovered_finish (r : Scan n) (place : Fin n) (parent : Option (Fin n)) :
    (r.finish place parent).undiscovered = r.tables.undiscovered := by
  unfold finish
  split <;> rfl

end Scan

namespace SearchTables

/-! ### The recursion -/

/-- Looks at the neighbours `pending` of a place in turn, and searches the new ones. -/
def scanBounded (adjacency : Adjacency n) (place : Fin n) (depth : Nat) (parent : Option (Fin n)) :
    (pending : List (Fin n)) → (r : Scan n) →
      { r' : Scan n // r'.tables.undiscovered ≤ r.tables.undiscovered }
  | [], r => ⟨r, le_rfl⟩
  | next :: pending, r =>
    match new : r.tables.depth.get next with
    | some d =>
      let rest := scanBounded adjacency place depth parent pending (r.known place parent next d)
      ⟨rest, rest.2.trans_eq (r.undiscovered_known ..)⟩
    | none =>
      have fewer := undiscovered_discover new (depth + 1) (some place)
      let below := scanBounded adjacency next (depth + 1) (some place) (adjacency.get next)
        (.start r.tables next (depth + 1) (some place))
      let visited := below.1.finish next (some place)
      have fewer' := (below.1.undiscovered_finish next (some place)).trans_lt
        (below.2.trans_lt fewer)
      let rest := scanBounded adjacency place depth parent pending
        (r.child place depth next visited)
      ⟨rest, rest.2.trans fewer'.le⟩
termination_by pending r => (r.tables.undiscovered, pending.length)
decreasing_by
  · rw [Scan.undiscovered_known]
    exact Prod.Lex.right _ (Nat.lt_succ_self _)
  · exact Prod.Lex.left _ _ fewer
  · exact Prod.Lex.left _ _ fewer'

/-- The scan of the neighbours `pending`. -/
def scan (adjacency : Adjacency n) (place : Fin n) (depth : Nat) (parent : Option (Fin n))
    (pending : List (Fin n)) (r : Scan n) : Scan n :=
  scanBounded adjacency place depth parent pending r

/-- **The search of a place.**  It is discovered, its neighbours are looked at in turn, and it is
    recorded if it is a cut vertex. -/
def visit (adjacency : Adjacency n) (t : SearchTables n) (place : Fin n) (depth : Nat)
    (parent : Option (Fin n)) : SearchTables n :=
  (scan adjacency place depth parent (adjacency.get place)
    (.start t place depth parent)).finish place parent

/-- Searches from `root`, unless it is discovered. -/
def visitNew (adjacency : Adjacency n) (t : SearchTables n) (root : Fin n) : SearchTables n :=
  if (t.depth.get root).isNone then visit adjacency t root 0 none else t

variable {adjacency : Adjacency n} {place next x : Fin n} {depth d : Nat} {parent : Option (Fin n)}
  {pending : List (Fin n)} {r : Scan n} {t : SearchTables n}

theorem scan_nil : scan adjacency place depth parent [] r = r := by
  rw [scan, scanBounded]

/-- A scan passes over a neighbour that is known. -/
theorem scan_known (known : r.tables.depth.get next = some d) :
    scan adjacency place depth parent (next :: pending) r =
      scan adjacency place depth parent pending (r.known place parent next d) := by
  rw [scan, scanBounded]
  split
  · next d' known' =>
    obtain rfl : d = d' := Option.some.inj (known.symm.trans known')
    rfl
  · next new => cases known.symm.trans new

/-- A scan searches a neighbour that is new before it looks at the next one. -/
theorem scan_new (new : r.tables.depth.get next = none) :
    scan adjacency place depth parent (next :: pending) r =
      scan adjacency place depth parent pending
        (r.child place depth next (visit adjacency r.tables next (depth + 1) (some place))) := by
  rw [scan, scanBounded]
  split
  · next d known => cases known.symm.trans new
  · rfl

/-- Induction along a scan: no neighbour is left, or the next one is known, or it is new and is
    searched first. -/
theorem scan_induction (adjacency : Adjacency n)
    {motive : Fin n → Nat → Option (Fin n) → List (Fin n) → Scan n → Prop}
    (nil : ∀ place depth parent r, motive place depth parent [] r)
    (known : ∀ place depth parent next pending (r : Scan n) d,
      r.tables.depth.get next = some d →
      motive place depth parent pending (r.known place parent next d) →
      motive place depth parent (next :: pending) r)
    (new : ∀ place depth parent next pending (r : Scan n), r.tables.depth.get next = none →
      motive next (depth + 1) (some place) (adjacency.get next)
        (.start r.tables next (depth + 1) (some place)) →
      motive place depth parent pending
        (r.child place depth next (visit adjacency r.tables next (depth + 1) (some place))) →
      motive place depth parent (next :: pending) r)
    (place : Fin n) (depth : Nat) (parent : Option (Fin n)) (pending : List (Fin n)) (r : Scan n) :
    motive place depth parent pending r := by
  induction place, depth, parent, pending, r using scanBounded.induct adjacency with
  | case1 place depth parent r => exact nil place depth parent r
  | case2 place depth parent next pending r d hd rest =>
    exact known place depth parent next pending r d hd rest
  | case3 place depth parent next pending r hd _ _ _ _ below rest =>
    exact new place depth parent next pending r hd below rest

/-! ### What a search leaves as it is -/

theorem get_depth_discover : (t.discover place depth parent).depth.get x =
    if place = x then some depth else t.depth.get x :=
  get_set _ _ _ _

theorem get_parent_discover : (t.discover place depth parent).parent.get x =
    if place = x then parent else t.parent.get x :=
  get_set _ _ _ _

/-- Places that are discovered keep their depths and parents. -/
structure Keeps (t t' : SearchTables n) : Prop where
  depth : ∀ {x d}, t.depth.get x = some d → t'.depth.get x = some d
  parent : ∀ {x d}, t.depth.get x = some d → t'.parent.get x = t.parent.get x

theorem Keeps.refl (t : SearchTables n) : Keeps t t := ⟨fun h => h, fun _ => rfl⟩

theorem Keeps.trans {t t' t'' : SearchTables n} (h : Keeps t t') (h' : Keeps t' t'') :
    Keeps t t'' :=
  ⟨fun hx => h'.depth (h.depth hx), fun hx => (h'.parent (h.depth hx)).trans (h.parent hx)⟩

/-- To discover a new place changes nothing about the others. -/
theorem keeps_discover (new : t.depth.get place = none) (depth : Nat) (parent : Option (Fin n)) :
    Keeps t (t.discover place depth parent) := by
  have other {x : Fin n} {d : Nat} (hx : t.depth.get x = some d) : place ≠ x := by
    rintro rfl
    cases new.symm.trans hx
  refine ⟨fun hx => ?_, fun hx => ?_⟩
  · rw [get_depth_discover, if_neg (other hx), hx]
  · rw [get_parent_discover, if_neg (other hx)]

theorem keeps_lower (t : SearchTables n) (place : Fin n) (depth : Nat) :
    Keeps t (t.lower place depth) := ⟨fun h => h, fun _ => rfl⟩

/-- A known neighbour changes a low value at most. -/
theorem keeps_known (r : Scan n) (place : Fin n) (parent : Option (Fin n)) (next : Fin n)
    (d : Nat) : Keeps r.tables (r.known place parent next d).tables := by
  unfold Scan.known
  split
  · exact .refl _
  · exact keeps_lower ..

/-- To record a place changes no table. -/
theorem keeps_finish (r : Scan n) (place : Fin n) (parent : Option (Fin n)) :
    Keeps r.tables (r.finish place parent) := by
  unfold Scan.finish
  split
  · exact ⟨fun h => h, fun _ => rfl⟩
  · exact .refl _

/-- **A scan** changes nothing but low values about the places that are discovered. -/
theorem keeps_scan (adjacency : Adjacency n) (place : Fin n) (depth : Nat)
    (parent : Option (Fin n)) (pending : List (Fin n)) (r : Scan n) :
    Keeps r.tables (scan adjacency place depth parent pending r).tables := by
  induction place, depth, parent, pending, r using scan_induction adjacency with
  | nil place depth parent r =>
    rw [scan_nil]
    exact .refl _
  | known place depth parent next pending r d hd rest =>
    rw [scan_known hd]
    exact (keeps_known ..).trans rest
  | new place depth parent next pending r hd below rest =>
    rw [scan_new hd]
    have visited : Keeps r.tables (visit adjacency r.tables next (depth + 1) (some place)) :=
      ((keeps_discover hd _ _).trans below).trans (keeps_finish ..)
    exact (visited.trans (keeps_lower ..)).trans rest

/-- The search of a new place, too. -/
theorem keeps_visit (adjacency : Adjacency n) (new : t.depth.get place = none) (depth : Nat)
    (parent : Option (Fin n)) : Keeps t (visit adjacency t place depth parent) :=
  ((keeps_discover new depth parent).trans (keeps_scan _ _ _ _ _ (.start ..))).trans
    (keeps_finish ..)

/-- A scan starts with the place discovered. -/
theorem discovered_start (t : SearchTables n) (place : Fin n) (depth : Nat)
    (parent : Option (Fin n)) :
    ∃ d, (Scan.start t place depth parent).tables.depth.get place = some d :=
  ⟨depth, by rw [Scan.start, get_depth_discover, if_pos rfl]⟩

theorem parent_start : (Scan.start t place depth parent).tables.parent.get place = parent := by
  rw [Scan.start, get_parent_discover, if_pos rfl]

/-- While a place is searched, its parent stays what it is. -/
theorem parent_scan_start (adjacency : Adjacency n) (t : SearchTables n) (place : Fin n)
    (depth : Nat) (parent : Option (Fin n)) (pending : List (Fin n)) :
    (scan adjacency place depth parent pending
      (.start t place depth parent)).tables.parent.get place = parent := by
  obtain ⟨d, discovered⟩ := discovered_start t place depth parent
  have kept := keeps_scan adjacency place depth parent pending (.start t place depth parent)
  exact (kept.parent discovered).trans parent_start

end SearchTables

end Drafting
