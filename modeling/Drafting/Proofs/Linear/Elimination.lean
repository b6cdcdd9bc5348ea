import Drafting.Proofs.Linear.Pivot

namespace Drafting

/-!
# What elimination keeps

After `k` steps the packed matrix holds the first `k` columns of the lower factor, and in the other
places what is left to eliminate.  Multiplied out, they are the rows of the given matrix in the
order that the exchanges have brought them into.  An exchange moves whole rows, earlier multipliers
included, and a step of elimination takes as much from a row as its multiplier gives back.

* `arrangement` — the exchanges of the first steps as one permutation;
* `Mat.productAt` — the factors as far as they are known, multiplied out;
* `Factors.productAt_afterSteps` — the invariant of elimination.
-/

variable {F : Type} {n : Nat}

/-! ### The order of the rows -/

/-- Where the rows come from that the exchanges of the first `k` steps have brought to their
    places. -/
def arrangement (pivots : Vector (Fin n) n) : Nat → Equiv.Perm (Fin n)
  | 0 => 1
  | k + 1 =>
    if h : k < n then arrangement pivots k * Equiv.swap ⟨k, h⟩ (pivots.get ⟨k, h⟩)
    else arrangement pivots k

theorem arrangement_succ (pivots : Vector (Fin n) n) (k : Fin n) :
    arrangement pivots (k + 1) = arrangement pivots k * Equiv.swap k (pivots.get k) := by
  rw [arrangement, dif_pos k.isLt]

/-- An arrangement depends only on the exchanges made so far. -/
theorem arrangement_congr {pivots pivots' : Vector (Fin n) n} {k : Nat}
    (h : ∀ i : Fin n, i.val < k → pivots.get i = pivots'.get i) :
    arrangement pivots k = arrangement pivots' k := by
  induction k with
  | zero => rfl
  | succ k ih =>
    have before := ih fun i hi => h i (by omega)
    by_cases hk : k < n
    · rw [arrangement, arrangement, dif_pos hk, dif_pos hk, before, h ⟨k, hk⟩ (Nat.lt_succ_self k)]
    · rw [arrangement, arrangement, dif_neg hk, dif_neg hk, before]

/-- An exchange with a row below leaves the rows above alone. -/
theorem swap_apply_above {k p i : Fin n} (hp : k ≤ p) (hi : i < k) : Equiv.swap k p i = i :=
  Equiv.swap_apply_of_ne_of_ne (ne_of_lt hi) (ne_of_lt (lt_of_lt_of_le hi hp))

/-- An exchange below a row does not lead above it. -/
theorem le_swap_apply {k p i : Fin n} (hp : k ≤ p) (hi : k ≤ i) : k ≤ Equiv.swap k p i := by
  by_contra hlt
  have fixed := swap_apply_above hp (not_le.mp hlt)
  rw [Equiv.swap_apply_self] at fixed
  exact hlt (fixed ▸ hi)

namespace Mat

/-- The entries after an exchange of two rows. -/
theorem entry_swapRows (m : Mat F n n) (k p i j : Fin n) :
    (m.swapRows k p).entry i j = m.entry (Equiv.swap k p i) j := by
  rw [entry, swapRows, get_swap, Equiv.swap_apply_def]
  split
  · rfl
  · split <;> rfl

variable {K : Type} [ExactScalar K]

/-- The upper factor as far as `k` steps have cleared its columns. -/
def upperAt (m : Mat K n n) (k : Nat) (i j : Fin n) : K :=
  if j < i ∧ j.val < k then 0 else m.entry i j

/-- The lower factor, in its first `k` columns, times the upper one. -/
def productAt (m : Mat K n n) (k : Nat) (i j : Fin n) : K :=
  ∑ l with l < i ∧ l.val < k, m.entry i l * m.upperAt k l j + m.upperAt k i j

variable {m : Mat K n n} {k p i j : Fin n}

theorem productAt_zero (m : Mat K n n) (i j : Fin n) : m.productAt 0 i j = m.entry i j := by
  simp [productAt, upperAt]

/-- An exchange below the first `k` rows exchanges the rows of the product. -/
theorem productAt_swapRows (hp : k ≤ p) :
    (m.swapRows k p).productAt k i j = m.productAt k (Equiv.swap k p i) j := by
  -- the rows above are in their places
  have upper_above {l : Fin n} (hl : l < k) :
      (m.swapRows k p).upperAt k l j = m.upperAt k l j := by
    rw [upperAt, upperAt, entry_swapRows, swap_apply_above hp hl]
  rcases lt_or_ge i k with hi | hi
  · rw [swap_apply_above hp hi, productAt, productAt, upper_above hi]
    congr 1
    refine Finset.sum_congr rfl fun l hl => ?_
    have hl := (Finset.mem_filter.mp hl).2
    rw [entry_swapRows, swap_apply_above hp hi, upper_above (Fin.lt_def.mpr hl.2)]
  · have hi' := le_swap_apply hp hi
    -- both rows have multipliers in all of the first `k` columns
    have range {r : Fin n} (hr : k ≤ r) :
        (Finset.univ.filter fun l : Fin n => l < r ∧ l.val < k) =
          Finset.univ.filter fun l : Fin n => l < k := by
      ext l
      simp only [Finset.mem_filter, Finset.mem_univ, true_and, Fin.lt_def, Fin.le_def] at hr ⊢
      omega
    rw [productAt, productAt, range hi, range hi']
    congr 1
    · refine Finset.sum_congr rfl fun l hl => ?_
      rw [entry_swapRows, upper_above (Finset.mem_filter.mp hl).2]
    · have cleared : (j < i ∧ j.val < k) ↔ (j < Equiv.swap k p i ∧ j.val < k) := by
        simp only [Fin.lt_def, Fin.le_def] at hi hi' ⊢
        omega
      simp only [upperAt, entry_swapRows, cleared]

/-- The multiplier of a row gives back what clearing the column takes from the row.  With a zero
    pivot there must be nothing to clear. -/
theorem eliminate_gives_back (hi : k < i) (hzero : m.entry k k = 0 → m.entry i k = 0) :
    (m.eliminate k).entry i k * m.upperAt k k j + (m.eliminate k).upperAt (k + 1) i j =
      m.upperAt k i j := by
  rcases lt_trichotomy j k with hj | rfl | hj
  · -- a column that is cleared already
    have hj' : j.val < k := hj
    rw [upperAt, if_pos ⟨hj, hj'⟩, upperAt, if_pos ⟨hj.trans hi, by omega⟩, upperAt,
      if_pos ⟨hj.trans hi, hj'⟩, mul_zero, add_zero]
  · -- the column of the step
    have open_column : ¬ j.val < j.val := lt_irrefl _
    rw [upperAt, if_neg (fun h => open_column h.2), upperAt, if_pos ⟨hi, by omega⟩, upperAt,
      if_neg (fun h => open_column h.2), entry_eliminate, if_pos hi, if_neg (lt_irrefl j),
      if_pos rfl, add_zero]
    by_cases pivot : m.entry j j = 0
    · rw [pivot, mul_zero, hzero pivot]
    · exact div_mul_cancel₀ _ pivot
  · -- a column to come
    have hj' : ¬ j.val < k := not_lt.mpr (le_of_lt hj)
    have hj'' : ¬ j.val < k + 1 := by
      simp only [Fin.lt_def] at hj
      omega
    rw [upperAt, if_neg (fun h => hj' h.2), upperAt, if_neg (fun h => hj'' h.2), upperAt,
      if_neg (fun h => hj' h.2), entry_eliminate, if_pos hi, if_neg (lt_irrefl k), if_pos rfl,
      entry_eliminate, if_pos hi, if_neg hj.not_gt, if_neg hj.ne']
    ring

/-- Clearing a column leaves the product as it is. -/
theorem productAt_eliminate (hzero : k < i → m.entry k k = 0 → m.entry i k = 0) :
    (m.eliminate k).productAt (k + 1) i j = m.productAt k i j := by
  -- in the rows above and in the row of the step nothing happens
  have upper_above {l : Fin n} (hl : l ≤ k) :
      (m.eliminate k).upperAt (k + 1) l j = m.upperAt k l j := by
    have cleared : (j < l ∧ j.val < k + 1) ↔ (j < l ∧ j.val < k) := by
      simp only [Fin.lt_def, Fin.le_def] at hl ⊢
      omega
    simp only [upperAt, entry_eliminate, not_lt.mpr hl, cleared, if_false]
  rcases le_or_gt i k with hi | hi
  · have range : (Finset.univ.filter fun l : Fin n => l < i ∧ l.val < k + 1) =
        Finset.univ.filter fun l : Fin n => l < i ∧ l.val < k := by
      ext l
      simp only [Finset.mem_filter, Finset.mem_univ, true_and, Fin.lt_def, Fin.le_def] at hi ⊢
      omega
    rw [productAt, productAt, range, upper_above hi]
    congr 1
    refine Finset.sum_congr rfl fun l hl => ?_
    have hl := (Finset.mem_filter.mp hl).2
    rw [entry_eliminate, if_neg (not_lt.mpr hi), upper_above (hl.1.le.trans hi)]
  · -- one more multiplier, and as much less in the row
    have range : (Finset.univ.filter fun l : Fin n => l < i ∧ l.val < k + 1) =
        insert k (Finset.univ.filter fun l : Fin n => l < i ∧ l.val < k) := by
      ext l
      simp only [Finset.mem_filter, Finset.mem_univ, true_and, Finset.mem_insert, Fin.lt_def,
        Fin.ext_iff] at hi ⊢
      omega
    have fresh : k ∉ Finset.univ.filter fun l : Fin n => l < i ∧ l.val < k := by simp
    have before : ∑ l with l < i ∧ l.val < k,
          (m.eliminate k).entry i l * (m.eliminate k).upperAt (k + 1) l j =
        ∑ l with l < i ∧ l.val < k, m.entry i l * m.upperAt k l j := by
      refine Finset.sum_congr rfl fun l hl => ?_
      have hl : l < k := Fin.lt_def.mpr (Finset.mem_filter.mp hl).2.2
      rw [entry_eliminate, if_pos hi, if_pos hl, upper_above hl.le]
    rw [productAt, productAt, range, Finset.sum_insert fresh, before, upper_above le_rfl,
      ← eliminate_gives_back hi (hzero hi)]
    ring

end Mat

/-! ### Steps -/

namespace Factors

section Steps

variable [Scalar F]

theorem pivots_step (f : Factors F n) (k i : Fin n) :
    (f.step k).pivots.get i = if k = i then f.packed.pivotRow k else f.pivots.get i := by
  rw [step, get_set]

theorem afterSteps_succ (a : Mat F n n) (k : Fin n) :
    afterSteps a (k + 1) = (afterSteps a k).step k := by
  rw [afterSteps, dif_pos k.isLt]

/-- A step records its exchange, and later steps leave the record alone. -/
theorem pivots_afterSteps (a : Mat F n n) {k : Nat} (i : Fin n) (hi : i.val < k) :
    (afterSteps a k).pivots.get i = (afterSteps a i).packed.pivotRow i := by
  induction k with
  | zero => exact absurd hi (Nat.not_lt_zero i)
  | succ k ih =>
    by_cases hk : k < n
    · rw [afterSteps_succ a ⟨k, hk⟩, pivots_step]
      rcases Nat.lt_succ_iff_lt_or_eq.mp hi with hlt | heq
      · rw [if_neg (fun h => by simp [← h] at hlt), ih hlt]
      · obtain rfl : (⟨k, hk⟩ : Fin n) = i := Fin.ext heq.symm
        rw [if_pos rfl]
    · rw [afterSteps, dif_neg hk]
      exact ih (i.isLt.trans_le (not_lt.mp hk))

/-- Steps look for their pivots from their own row on. -/
theorem le_pivots (a : Mat F n n) (i : Fin n) : i ≤ (ofSquare a).pivots.get i := by
  rw [ofSquare, pivots_afterSteps a i i.isLt]
  exact Mat.le_pivotRow _ i

/-- The rows above a step are as they will be. -/
theorem entry_step_above (f : Factors F n) {k i : Fin n} (hi : i < k) (j : Fin n) :
    (f.step k).packed.entry i j = f.packed.entry i j := by
  rw [step, Mat.entry_eliminate, if_neg hi.not_gt, Mat.entry_swapRows,
    swap_apply_above (f.packed.le_pivotRow k) hi]

/-- Rows above a step are finished. -/
theorem entry_afterSteps_above (a : Mat F n n) {i : Fin n} {k : Nat} (hi : i.val < k) (j : Fin n) :
    (afterSteps a k).packed.entry i j = (afterSteps a (i + 1)).packed.entry i j := by
  induction k with
  | zero => exact absurd hi (Nat.not_lt_zero i)
  | succ k ih =>
    rcases Nat.lt_succ_iff_lt_or_eq.mp hi with hlt | heq
    · by_cases hk : k < n
      · rw [afterSteps_succ a ⟨k, hk⟩, entry_step_above _ (Fin.lt_def.mpr hlt), ih hlt]
      · rw [afterSteps, dif_neg hk, ih hlt]
    · rw [heq]

/-- What step `k` divides by: the entry that its exchange brings to the diagonal. -/
def pivot (a : Mat F n n) (k : Fin n) : F :=
  ((afterSteps a k).packed.swapRows k ((afterSteps a k).packed.pivotRow k)).entry k k

/-- The pivots are the diagonal of the upper factor. -/
theorem entry_ofSquare_diagonal (a : Mat F n n) (k : Fin n) :
    (ofSquare a).packed.entry k k = pivot a k := by
  rw [ofSquare, entry_afterSteps_above a k.isLt, afterSteps_succ, step, Mat.entry_eliminate,
    if_neg (lt_irrefl k), pivot]

end Steps

variable {K : Type} [ExactScalar K] [LinearOrder K] [IsStrictOrderedRing K] [ExactOrder K]

/-- A step exchanges two rows of the product, and does nothing else to it. -/
theorem productAt_step (f : Factors K n) (k i j : Fin n) :
    (f.step k).packed.productAt (k + 1) i j =
      f.packed.productAt k (Equiv.swap k (f.packed.pivotRow k) i) j := by
  have below := f.packed.le_pivotRow k
  rw [step, Mat.productAt_eliminate, Mat.productAt_swapRows below]
  -- a zero pivot is the largest entry that is left in its column
  intro hi zero
  rw [Mat.entry_swapRows, Equiv.swap_apply_left] at zero
  rw [Mat.entry_swapRows]
  exact Mat.entry_eq_zero_of_pivot (le_swap_apply below hi.le) zero

/-- **The invariant of elimination.**  After `k` steps the factors multiply out to the given matrix,
    with its rows in the order of the exchanges. -/
theorem productAt_afterSteps (a : Mat K n n) {k : Nat} (hk : k ≤ n) (i j : Fin n) :
    (afterSteps a k).packed.productAt k i j =
      a.entry (arrangement (afterSteps a k).pivots k i) j := by
  induction k generalizing i with
  | zero => exact Mat.productAt_zero a i j
  | succ k ih =>
    have record : arrangement (afterSteps a (k + 1)).pivots k =
        arrangement (afterSteps a k).pivots k :=
      arrangement_congr fun i hi => by
        rw [pivots_afterSteps a i hi, pivots_afterSteps a i (hi.trans (Nat.lt_succ_self k))]
    have exchange := pivots_afterSteps a (⟨k, hk⟩ : Fin n) (Nat.lt_succ_self k)
    rw [arrangement_succ _ ⟨k, hk⟩, Equiv.Perm.mul_apply, record, exchange, ← ih (by omega)]
    rw [afterSteps_succ a ⟨k, hk⟩, productAt_step]

end Factors

end Drafting
