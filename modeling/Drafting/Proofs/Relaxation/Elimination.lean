import Mathlib.Data.Finset.Sort
import Drafting.Proofs.Relaxation.Flags
import Drafting.Relaxation.Solve

namespace Drafting

/-!
# Relaxation is elimination

Relaxation works on a list that gets shorter: what is left moves to other places, and on the way out
each level puts one flag in between those of the levels below.  Seen from outside it eliminates: in
rounds, over places that never move, and each round but the last takes the least place that is not
met away.

* `eliminate` — elimination over the places of a list, with what the minimizer is run on;
* `kept_eliminate_subset`, `length_runs_eliminate_le` — what elimination leaves, and its runs;
* `relax_of_simulation` — relaxation does not look into points;
* `relax_logged` — nor does it matter that the minimizer writes down what it is run on;
* `relax_sort` — relaxation of what stands at some places eliminates these places;
* `relax_eq_eliminate` — relaxation of equations.
-/

variable {ε α β γ : Type}

/-! ### Elimination -/

/-- Where elimination ends. -/
structure Elimination (α β : Type) (n : Nat) where
  /-- The places that are left. -/
  kept : Finset (Fin n)
  /-- The last point. -/
  point : β
  /-- The conditions and the point of each run of the minimizer, in order. -/
  runs : List (List α × β)

/-- Elimination over some of the places of a list.  As long as there are places left, the minimizer
    is run on what stands at them, in their order; if it has no answer, the point stays.  Then the
    least place that is not met is taken away.  Elimination ends where there is none. -/
def eliminate (minimizer : List α → β → Option β) (isMet : β → α → Bool) (conditions : List α)
    (places : Finset (Fin conditions.length)) (x : β) : Elimination α β conditions.length :=
  if places = ∅ then ⟨∅, x, []⟩
  else
    let tried := places.sort.map conditions.get
    let point := (minimizer tried x).getD x
    let unmet := places.filter fun i => !isMet point (conditions.get i)
    if h : unmet.Nonempty then
      let rest := eliminate minimizer isMet conditions (places.erase (unmet.min' h)) point
      { rest with runs := (tried, x) :: rest.runs }
    else ⟨places, point, [(tried, x)]⟩
termination_by places.card
decreasing_by exact Finset.card_erase_lt_of_mem (Finset.filter_subset _ _ (unmet.min'_mem h))

/-- The minimizer, writing down behind the point what it is run on. -/
def logged (minimizer : List α → β → Option β) (conditions : List α)
    (x : β × List (List α × β)) : Option (β × List (List α × β)) :=
  some ((minimizer conditions x.1).getD x.1, x.2 ++ [(conditions, x.1)])

/-- Only places that were there are left. -/
theorem kept_eliminate_subset (minimizer : List α → β → Option β) (isMet : β → α → Bool)
    (conditions : List α) (places : Finset (Fin conditions.length)) (x : β) :
    (eliminate minimizer isMet conditions places x).kept ⊆ places := by
  fun_induction eliminate minimizer isMet conditions places x with
  | case1 => exact subset_rfl
  | case2 =>
    rename_i ih
    exact ih.trans (Finset.erase_subset _ _)
  | case3 => exact subset_rfl

/-- There is at most one run for each place. -/
theorem length_runs_eliminate_le (minimizer : List α → β → Option β) (isMet : β → α → Bool)
    (conditions : List α) (places : Finset (Fin conditions.length)) (x : β) :
    (eliminate minimizer isMet conditions places x).runs.length ≤ places.card := by
  fun_induction eliminate minimizer isMet conditions places x with
  | case1 => exact le_rfl
  | case2 places x hne tried point unmet h rest ih =>
    have fewer := Finset.card_erase_add_one (Finset.filter_subset _ _ (unmet.min'_mem h))
    exact fewer ▸ Nat.succ_le_succ ih
  | case3 places x hne => exact Finset.card_pos.mpr (Finset.nonempty_iff_ne_empty.mpr hne)

/-! ### Places -/

/-- To take a place away is to take it out of the list of places. -/
theorem sort_erase_getElem {n : Nat} (places : Finset (Fin n)) {k : Nat}
    (hk : k < places.sort.length) :
    (places.erase places.sort[k]).sort = places.sort.eraseIdx k := by
  have nodup : places.sort.Nodup := places.sort_nodup (· ≤ ·)
  have rest : places.erase places.sort[k] = (places.sort.eraseIdx k).toFinset := by
    rw [← nodup.erase_getElem k hk]
    ext i
    rw [List.mem_toFinset, nodup.mem_erase_iff, Finset.mem_sort, Finset.mem_erase]
  rw [rest, List.toFinset_sort _ (nodup.eraseIdx k)]
  exact (places.pairwise_sort _).sublist (List.eraseIdx_sublist _ _)

theorem map_sort_ne_nil {n : Nat} {places : Finset (Fin n)} (h : places ≠ ∅) (f : Fin n → α) :
    places.sort.map f ≠ [] := by
  rw [← List.length_pos_iff, List.length_map, Finset.length_sort]
  exact Finset.card_pos.mpr (Finset.nonempty_iff_ne_empty.mpr h)

/-- The first place of the list that passes a test is the least place that passes it. -/
theorem findIdx?_sort {n : Nat} {places : Finset (Fin n)} {test : Fin n → Bool}
    (h : (places.filter fun i => test i).Nonempty) :
    ∃ k, ∃ hk : k < places.sort.length, places.sort.findIdx? test = some k ∧
      (places.filter fun i => test i).min' h = places.sort[k] := by
  cases hfound : places.sort.findIdx? test with
  | none =>
    obtain ⟨i, hi⟩ := h
    obtain ⟨hmem, hi⟩ := Finset.mem_filter.mp hi
    have fails := List.findIdx?_eq_none_iff.mp hfound i ((Finset.mem_sort _).mpr hmem)
    exact absurd hi (Bool.eq_false_iff.mp fails)
  | some k =>
    obtain ⟨hk, passes, before⟩ := List.findIdx?_eq_some_iff_getElem.mp hfound
    refine ⟨k, hk, rfl, (Finset.min'_eq_iff _ h _).mpr ⟨?_, fun i hi => ?_⟩⟩
    · exact Finset.mem_filter.mpr ⟨(Finset.mem_sort _).mp (List.getElem_mem hk), passes⟩
    · obtain ⟨hmem, hi⟩ := Finset.mem_filter.mp hi
      obtain ⟨j, hj, rfl⟩ := List.getElem_of_mem ((Finset.mem_sort (· ≤ ·)).mpr hmem)
      have behind : k ≤ j := not_lt.mp fun hlt => before j hlt hi
      exact places.sortedLT_sort.sortedLE.getElem_le_getElem_of_le behind

/-- Flags for all places but one, and a flag for that one in between. -/
theorem insertIdx_map_mem {n : Nat} {places kept : Finset (Fin n)} {k : Nat}
    (hk : k < places.sort.length) (hkept : places.sort[k] ∉ kept) :
    ((places.sort.eraseIdx k).map (decide <| · ∈ kept)).insertIdx k false =
      places.sort.map (decide <| · ∈ kept) := by
  rw [← decide_eq_false hkept, ← List.map_insertIdx, List.insertIdx_eraseIdx_getElem hk]

/-! ### Relaxation -/

/-- Relaxation does not look into points: a minimizer and a test that agree through `f` on points
    lead to the same flags, and to points that agree. -/
theorem relax_of_simulation (f : γ → β) {minimizer : List α → β → Option β}
    {minimizer' : List α → γ → Option γ} {isMet : β → α → Bool} {isMet' : γ → α → Bool}
    (hmin : ∀ conditions y,
      f ((minimizer' conditions y).getD y) = (minimizer conditions (f y)).getD (f y))
    (hmet : ∀ y c, isMet' y c = isMet (f y) c) (conditions : List α) (y : γ) :
    (relax minimizer isMet conditions (f y) : Except ε _) =
      (relax minimizer' isMet' conditions y).map fun answer => (answer.1, f answer.2) := by
  fun_induction relax minimizer' isMet' conditions y with
  | case1 conditions y h =>
    rw [relax, if_pos h]
    rfl
  | case2 conditions y h point found =>
    have hne : conditions ≠ [] := by simpa using h
    simp only [hmet, point, hmin] at found
    rw [relax_of_met hne found, ← hmin]
    rfl
  | case3 conditions y h point i found ih =>
    have hne : conditions ≠ [] := by simpa using h
    simp only [hmet, point, hmin] at found
    rw [relax_of_unmet hne found, ← hmin, ih]
    -- both pass on how the level below ends
    cases relax minimizer' isMet' (conditions.eraseIdx i) point <;> rfl

/-- Writing down what the minimizer is run on changes nothing. -/
theorem relax_logged (minimizer : List α → β → Option β) (isMet : β → α → Bool)
    (conditions : List α) (x : β) (log : List (List α × β)) :
    (relax minimizer isMet conditions x : Except ε _) =
      (relax (logged minimizer) (fun y => isMet y.1) conditions (x, log)).map
        fun answer => (answer.1, answer.2.1) :=
  relax_of_simulation Prod.fst (fun _ _ => rfl) (fun _ _ => rfl) conditions (x, log)

/-- **One list of places.**  Relaxation of what stands at some places eliminates these places, and
    runs the minimizer on the same conditions at the same points. -/
theorem relax_sort (minimizer : List α → β → Option β) (isMet : β → α → Bool)
    (conditions : List α) (places : Finset (Fin conditions.length)) (x : β)
    (log : List (List α × β)) :
    let e := eliminate minimizer isMet conditions places x
    (relax (logged minimizer) (fun y => isMet y.1) (places.sort.map conditions.get) (x, log) :
      Except ε _) = .ok (places.sort.map (decide <| · ∈ e.kept), (e.point, log ++ e.runs)) := by
  fun_induction eliminate minimizer isMet conditions places x generalizing log with
  | case1 x => simp [relax]
  | case2 places x hne tried point unmet h rest ih =>
    -- the first condition on the list that is not met is the one at the least place
    obtain ⟨k, hk, hfound, hleast⟩ := findIdx?_sort h
    have hrelax := ih (log ++ [(tried, x)])
    have found : tried.findIdx? (fun c => !isMet point c) = some k :=
      List.findIdx?_map.trans hfound
    have level : (relax (logged minimizer) (fun y => isMet y.1) tried (x, log) : Except ε _) =
        (relax (logged minimizer) (fun y => isMet y.1) (tried.eraseIdx k)
          (point, log ++ [(tried, x)])).map fun rest => (rest.1.insertIdx k false, rest.2) :=
      relax_of_unmet (map_sort_ne_nil hne _) found
    -- behind it, the list of the places left is relaxed, and this one is not among those kept
    have left : (places.erase (unmet.min' h)).sort = places.sort.eraseIdx k := by
      rw [hleast, sort_erase_getElem places hk]
    have dropped : places.sort[k] ∉ rest.kept := fun hin =>
      Finset.notMem_erase _ _ (hleast ▸ kept_eliminate_subset _ _ _ _ _ hin)
    rw [left] at hrelax
    rw [level, List.eraseIdx_map, hrelax]
    refine congrArg Except.ok (Prod.ext (insertIdx_map_mem hk dropped) (Prod.ext rfl ?_))
    exact List.append_assoc log [(tried, x)] rest.runs
  | case3 places x hne tried point unmet h =>
    -- everything left is met, and all of it gets a flag
    have found : tried.findIdx? (fun c => !isMet point c) = none := by
      rw [List.findIdx?_map, List.findIdx?_eq_none_iff]
      intro i hi
      refine Bool.eq_false_iff.mpr fun hunmet => h ⟨i, ?_⟩
      exact Finset.mem_filter.mpr ⟨(Finset.mem_sort _).mp hi, hunmet⟩
    have level : (relax (logged minimizer) (fun y => isMet y.1) tried (x, log) : Except ε _) =
        .ok (tried.map fun _ => true, (point, log ++ [(tried, x)])) :=
      relax_of_met (map_sort_ne_nil hne _) found
    rw [level, List.map_map]
    refine congrArg Except.ok (Prod.ext (List.map_congr_left fun i hi => ?_) rfl)
    exact (decide_eq_true ((Finset.mem_sort _).mp hi)).symm

/-- Relaxation of all that is on a list, with a minimizer that writes down what it is run on. -/
theorem relax_logged_eq_of_eliminate (minimizer : List α → β → Option β) (isMet : β → α → Bool)
    (conditions : List α) (x : β) :
    let e := eliminate minimizer isMet conditions Finset.univ x
    (relax (logged minimizer) (fun y => isMet y.1) conditions (x, []) : Except ε _) =
      .ok ((List.finRange conditions.length).map (decide <| · ∈ e.kept), (e.point, e.runs)) := by
  have hrelax : (relax (logged minimizer) (fun y => isMet y.1)
      (Finset.univ.sort.map conditions.get) (x, []) : Except ε _) = _ :=
    relax_sort minimizer isMet conditions Finset.univ x []
  rwa [Fin.sort_univ, List.map_get_finRange] at hrelax

/-- Relaxation of all that is on a list, by elimination. -/
theorem relax_eq_of_eliminate (minimizer : List α → β → Option β) (isMet : β → α → Bool)
    (conditions : List α) (x : β) :
    let e := eliminate minimizer isMet conditions Finset.univ x
    (relax minimizer isMet conditions x : Except ε _) =
      .ok ((List.finRange conditions.length).map (decide <| · ∈ e.kept), e.point) := by
  rw [relax_logged minimizer isMet conditions x [], relax_logged_eq_of_eliminate]
  rfl

/-- **Relaxation is elimination.**  Whatever the minimizer is, relaxation of equations has an
    answer: a flag for each equation, true iff its place is left by the elimination of all places,
    and the values where elimination ends.  Run with a minimizer that writes down what it is run on,
    it shows the same flags and values, and that the minimizer runs as elimination says: at most
    once for each equation. -/
theorem relax_eq_eliminate {F : Type} [Scalar F]
    (minimizer : List (Program F) → List F → Option (List F)) (o : SolveOptions F)
    (programs : List (Program F)) (start : List F) :
    let e := eliminate minimizer o.isMet programs Finset.univ start
    let flags := (List.finRange programs.length).map (decide <| · ∈ e.kept)
    (relax minimizer o.isMet programs start : Except (SolveError F) _) = .ok (flags, e.point) ∧
    (relax (logged minimizer) (fun y => o.isMet y.1) programs (start, []) :
      Except (SolveError F) _) = .ok (flags, (e.point, e.runs)) ∧
    e.runs.length ≤ programs.length := by
  have hruns := length_runs_eliminate_le minimizer o.isMet programs Finset.univ start
  refine ⟨relax_eq_of_eliminate minimizer o.isMet programs start,
    relax_logged_eq_of_eliminate minimizer o.isMet programs start, ?_⟩
  simpa using hruns

end Drafting
