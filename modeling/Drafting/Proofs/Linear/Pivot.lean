import Drafting.Proofs.Exact.Field
import Drafting.Linear.Factor

namespace Drafting

/-!
# The choice of a pivot

The pivot row is the row of the step or one below it, whatever the order test says.  With an exact
order test no entry of the column, from the row of the step on, is larger than the pivot.

* `Mat.le_pivotRow` — no row above the step is ever exchanged;
* `Mat.abs_entry_le_pivot` — the pivot is largest in absolute value;
* `Mat.entry_eq_zero_of_pivot` — below a zero pivot there are only zeros.
-/

namespace Mat

variable {F : Type} [Scalar F] {n : Nat}

/-- A search that keeps the better one of two rows ends with one of the rows it has met. -/
theorem foldl_better_mem (better : Fin n → Fin n → Bool) (k : Fin n) (js : List (Fin n)) :
    js.foldl (fun best j => if better best j then j else best) k ∈ k :: js := by
  induction js generalizing k with
  | nil => exact List.mem_singleton_self k
  | cons j js ih =>
    rw [List.foldl_cons]
    split
    · exact List.mem_cons_of_mem k (ih j)
    · rcases List.mem_cons.mp (ih k) with h | h
      · exact List.mem_cons.mpr (Or.inl h)
      · exact List.mem_cons_of_mem k (List.mem_cons_of_mem j h)

/-- The pivot is looked for from the row of the step on. -/
theorem le_pivotRow (a : Mat F n n) (k : Fin n) : k ≤ a.pivotRow k := by
  have found := foldl_better_mem
    (fun best j => Scalar.less (Scalar.abs (a.entry best k)) (Scalar.abs (a.entry j k))) k
    (indices (k < ·))
  rcases List.mem_cons.mp found with h | h
  · exact le_of_eq h.symm
  · exact le_of_lt (of_decide_eq_true (mem_indices.mp h))

variable {K : Type} [ExactScalar K] [LinearOrder K] [ExactOrder K]

/-- A search for the largest absolute value finds it. -/
theorem abs_le_foldl (f : Fin n → K) (k : Fin n) (js : List (Fin n)) :
    ∀ i ∈ k :: js, |f i| ≤ |f (js.foldl (fun best j =>
      if Scalar.less (Scalar.abs (f best)) (Scalar.abs (f j)) then j else best) k)| := by
  induction js generalizing k with
  | nil => simp
  | cons j js ih =>
    rw [List.foldl_cons]
    simp only [ExactOrder.less_iff, ExactOrder.abs_eq] at ih ⊢
    intro i hi
    split
    case isTrue h =>
      rcases List.mem_cons.mp hi with rfl | hi
      · exact h.le.trans (ih j j List.mem_cons_self)
      · exact ih j i hi
    case isFalse h =>
      rcases List.mem_cons.mp hi with rfl | hi
      · exact ih i i List.mem_cons_self
      · rcases List.mem_cons.mp hi with rfl | hi
        · exact (not_lt.mp h).trans (ih k k List.mem_cons_self)
        · exact ih k i (List.mem_cons_of_mem k hi)

/-- No entry from there on exceeds the pivot. -/
theorem abs_entry_le_pivot (a : Mat K n n) {k i : Fin n} (h : k ≤ i) :
    |a.entry i k| ≤ |a.entry (a.pivotRow k) k| := by
  refine abs_le_foldl (a.entry · k) k (indices (k < ·)) i ?_
  rcases h.eq_or_lt with rfl | hlt
  · exact List.mem_cons_self
  · exact List.mem_cons_of_mem k (mem_indices.mpr (decide_eq_true hlt))

/-- If the pivot is zero, so are all entries from there on. -/
theorem entry_eq_zero_of_pivot [IsStrictOrderedRing K] {a : Mat K n n} {k i : Fin n} (h : k ≤ i)
    (hpivot : a.entry (a.pivotRow k) k = 0) : a.entry i k = 0 := by
  have bound := a.abs_entry_le_pivot h
  rw [hpivot, abs_zero] at bound
  exact abs_eq_zero.mp (le_antisymm bound (abs_nonneg _))

end Mat

end Drafting
