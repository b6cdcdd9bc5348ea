import Mathlib.Logic.Relation
import Drafting.Proofs.LowLink.Recursion

namespace Drafting

open Relation

/-!
# The path of the low-link search is a call stack

The machine that searches for cut vertices goes through the same tables as the recursion.  A place
on its path is a call that has not returned (`Scan.toVisit`), and `along` puts the two together: the
tables of the recursion, and a path to go on along.

* `SearchTables.step_known`, `SearchTables.step_new`, `SearchTables.step_child`,
  `SearchTables.step_root` — what one step of the machine does to the recursion;
* `SearchTables.steps_scan`, `SearchTables.steps_visit` — the steps of a whole scan, above any path,
  and of a whole search;
* `LowLink.search_eq_visit` — the machine ends, and it leaves behind what the recursion does.
-/

variable {n : Nat}

namespace LowLink

variable {adjacency : Adjacency n} {s s' : LowLink n}

/-- The tables of a state of the search. -/
def tables (s : LowLink n) : SearchTables n := ⟨s.depth, s.low, s.parent, s.points.reverse⟩

/-- One step leads from `s` to `s'`. -/
def StepsTo (adjacency : Adjacency n) (s s' : LowLink n) : Prop := s.step adjacency = some s'

/-- Steps lead from `s` to `s'`. -/
def Steps (adjacency : Adjacency n) : LowLink n → LowLink n → Prop :=
  ReflTransGen (StepsTo adjacency)

/-- A run may start one step later. -/
theorem run_of_stepsTo (h : StepsTo adjacency s s') : s.run adjacency = s'.run adjacency := by
  rw [LowLink.run.eq_def adjacency s]
  split
  · next h' => cases h.symm.trans h'
  · next t h' => rw [Option.some.inj (h.symm.trans h')]

/-- A run goes to where steps lead, if there is no step from there. -/
theorem run_eq_of_steps (h : Steps adjacency s s') (final : s'.step adjacency = none) :
    s.run adjacency = s' := by
  induction h using ReflTransGen.head_induction_on with
  | refl =>
    rw [LowLink.run.eq_def]
    split
    · rfl
    · next t h' => cases final.symm.trans h'
  | head h _ ih => rw [run_of_stepsTo h, ih]

end LowLink

/-- The visit of a place whose search has come so far, with the neighbours `pending` left. -/
def Scan.toVisit (r : Scan n) (place : Fin n) (depth : Nat) (pending : List (Fin n)) : Visit n :=
  ⟨place, depth, pending, r.children, r.isCut⟩

namespace SearchTables

open LowLink

/-- The machine with these tables, and with a path to go on along. -/
def along (t : SearchTables n) (path : List (Visit n)) : LowLink n :=
  ⟨t.depth, t.low, t.parent, t.points.reverse, path⟩

variable {adjacency : Adjacency n} {place next : Fin n} {depth d : Nat} {parent : Option (Fin n)}
  {pending : List (Fin n)} {r : Scan n} {path : List (Visit n)}

theorem tables_along (t : SearchTables n) (path : List (Visit n)) : (t.along path).tables = t := by
  simp [tables, along]

/-! ### One step -/

/-- A known neighbour is looked at. -/
theorem step_known (known : r.tables.depth.get next = some d)
    (hparent : r.tables.parent.get place = parent) :
    StepsTo adjacency (r.tables.along (r.toVisit place depth (next :: pending) :: path))
      ((r.known place parent next d).tables.along
        ((r.known place parent next d).toVisit place depth pending :: path)) := by
  by_cases h : parent = some next <;>
    simp [StepsTo, along, step, Scan.toVisit, look, known, hparent, h, Scan.known, LowLink.lower,
      SearchTables.lower]

/-- A new neighbour is entered.  The place counts it as a child from now on. -/
theorem step_new (new : r.tables.depth.get next = none) :
    StepsTo adjacency (r.tables.along (r.toVisit place depth (next :: pending) :: path))
      ((Scan.start r.tables next (depth + 1) (some place)).tables.along
        ((Scan.start r.tables next (depth + 1) (some place)).toVisit next (depth + 1)
            (adjacency.get next) ::
          ⟨place, depth, pending, r.children + 1, r.isCut⟩ :: path)) := by
  simp [StepsTo, along, step, Scan.toVisit, look, new, enter, Scan.start, discover]

theorem isPoint_along (hparent : r.tables.parent.get place = parent) :
    (r.tables.along path).isPoint (r.toVisit place depth pending) = r.isPoint parent := by
  rw [LowLink.isPoint, Scan.isPoint, ← hparent]
  rfl

/-- A place that is searched reports to the place above it. -/
theorem step_child (hparent : r.tables.parent.get place = parent) (up : Visit n) :
    StepsTo adjacency (r.tables.along (r.toVisit place depth [] :: up :: path))
      (((r.finish place parent).lower up.place ((r.finish place parent).low.get place)).along
        ({ up with isCut := up.isCut || up.depth ≤ (r.finish place parent).low.get place } ::
          path)) := by
  show some (leave ..) = _
  rw [leave, isPoint_along hparent, Scan.finish]
  cases r.isPoint parent <;>
    simp only [along, Scan.toVisit, LowLink.lower, SearchTables.lower, Bool.false_eq_true, if_true,
      if_false, List.reverse_append, List.reverse_cons, List.reverse_nil, List.nil_append,
      List.cons_append] <;> rfl

/-- A root that is searched ends the search. -/
theorem step_root (hparent : r.tables.parent.get place = parent) :
    StepsTo adjacency (r.tables.along [r.toVisit place depth []])
      ((r.finish place parent).along []) := by
  show some (leave ..) = _
  rw [leave, isPoint_along hparent, Scan.finish]
  cases r.isPoint parent <;> simp [along, Scan.toVisit]

/-! ### All steps -/

/-- **A scan.**  The machine looks at all neighbours that the place at the end of its path has left,
    and searches the new ones; the path above stays. -/
theorem steps_scan (hdepth : ∃ d, r.tables.depth.get place = some d)
    (hparent : r.tables.parent.get place = parent) :
    Steps adjacency (r.tables.along (r.toVisit place depth pending :: path))
      ((scan adjacency place depth parent pending r).tables.along
        ((scan adjacency place depth parent pending r).toVisit place depth [] :: path)) := by
  induction place, depth, parent, pending, r using scan_induction adjacency
    generalizing path with
  | nil place depth parent r =>
    rw [scan_nil]
    exact .refl
  | known place depth parent next pending r d hd rest =>
    rw [scan_known hd]
    obtain ⟨e, he⟩ := hdepth
    have kept := keeps_known r place parent next d
    exact .head (step_known hd hparent) (rest ⟨e, kept.depth he⟩ ((kept.parent he).trans hparent))
  | new place depth parent next pending r hd below rest =>
    rw [scan_new hd]
    obtain ⟨e, he⟩ := hdepth
    have kept := keeps_visit adjacency hd (depth + 1) (some place)
    -- the neighbour is searched, and reports
    let r' := r.child place depth next (visit adjacency r.tables next (depth + 1) (some place))
    have visited : Steps adjacency
        (r.tables.along (r.toVisit place depth (next :: pending) :: path))
        (r'.tables.along (r'.toVisit place depth pending :: path)) :=
      (ReflTransGen.head (step_new hd) (below (discovered_start ..) parent_start)).tail
        (step_child (parent_scan_start ..) _)
    -- the place has kept its entries, and goes on with the rest
    exact visited.trans (rest ⟨e, kept.depth he⟩ ((kept.parent he).trans hparent))

/-- **A search.** -/
theorem steps_visit (adjacency : Adjacency n) (t : SearchTables n) (root : Fin n) :
    Steps adjacency
      ((Scan.start t root 0 none).tables.along
        [(Scan.start t root 0 none).toVisit root 0 (adjacency.get root)])
      ((visit adjacency t root 0 none).along []) :=
  .tail (steps_scan (discovered_start ..) parent_start) (step_root (parent_scan_start ..))

end SearchTables

namespace LowLink

open SearchTables

/-- Entering a root is where its recursive search starts. -/
theorem enter_root_eq (adjacency : Adjacency n) (s : LowLink n) (root : Fin n) :
    s.enter adjacency root 0 none [] = (Scan.start s.tables root 0 none).tables.along
      [(Scan.start s.tables root 0 none).toVisit root 0 (adjacency.get root)] := by
  simp [enter, Scan.start, discover, tables, along, Scan.toVisit]

theorem search_eq_along (adjacency : Adjacency n) (s : LowLink n) (root : Fin n) :
    s.search adjacency root = (visit adjacency s.tables root 0 none).along [] := by
  rw [search, enter_root_eq]
  exact run_eq_of_steps (steps_visit ..) rfl

/-- A search that is made only where it is needed leaves the tables of the recursion. -/
theorem tables_searchNew (adjacency : Adjacency n) (s : LowLink n) (root : Fin n) :
    (s.searchNew adjacency root).tables = visitNew adjacency s.tables root := by
  show (searchNew ..).tables = if (s.depth.get root).isNone then _ else _
  rw [searchNew]
  split
  · rw [search_eq_along, tables_along]
  · rfl

theorem tables_foldl_searchNew (adjacency : Adjacency n) (roots : List (Fin n)) (s : LowLink n) :
    (roots.foldl (searchNew adjacency) s).tables = roots.foldl (visitNew adjacency) s.tables :=
  (List.foldl_hom tables fun s root => (tables_searchNew adjacency s root).symm).symm

/-- **The search is the recursion.**  From any state and any root, the machine comes to an end, and
    the depths, low values, parents and cut vertices it leaves behind, the cut vertices in the order
    in which they are recorded, are those of the recursive search.  So it is for searches from any
    list of roots, and the cut vertices of a graph are those that the recursion records. -/
theorem search_eq_visit (adjacency : Adjacency n) :
    (∀ (s : LowLink n) (root : Fin n), ∃ final,
      Steps adjacency (s.enter adjacency root 0 none []) final ∧ final.step adjacency = none ∧
        s.search adjacency root = final ∧
        final.tables = visit adjacency s.tables root 0 none) ∧
    (∀ roots : List (Fin n), (roots.foldl (searchNew adjacency) LowLink.start).tables =
      roots.foldl (visitNew adjacency) SearchTables.empty) ∧
    adjacency.cutVertices =
      ((List.finRange n).foldl (visitNew adjacency) SearchTables.empty).points := by
  have empty : (LowLink.start : LowLink n).tables = SearchTables.empty := rfl
  refine ⟨fun s root => ?_, fun roots => ?_, ?_⟩
  · refine ⟨_, ?_, ?_, search_eq_along adjacency s root, tables_along ..⟩
    · rw [enter_root_eq]
      exact steps_visit ..
    · rfl
  · rw [tables_foldl_searchNew, empty]
  · rw [← empty, ← tables_foldl_searchNew]
    rfl

/-- In a chain of four places the inner ones are cut vertices, and the deeper one is recorded
    first. -/
example : (visit #v[[1], [0, 2], [1, 3], [2]] SearchTables.empty (0 : Fin 4) 0 none).points =
    [2, 1] := by cbv

end LowLink

end Drafting
