import Drafting.Proofs.Linear.Triangular
import Drafting.Linear.Solve

namespace Drafting

/-!
# What substitution computes

Forward substitution exchanges two rows before each step.  As rows above a step are not exchanged
any more, it comes to the same to make all exchanges first.  This holds for all scalars; over an
exact field the two substitutions then solve the two triangular systems.

* `Factors.forward_eq` — all exchanges first, then all rows;
* `Factors.lower_mulVec_lowerSolve` — forward substitution solves the lower system;
* `Factors.upper_mulVec_backward` — back substitution solves the upper system.
-/

variable {F : Type} {n : Nat}

/-- The entries after an exchange, by the transposition of the two places. -/
theorem get_swap_eq (v : Vector F n) (i j k : Fin n) :
    (v.swap i j i.isLt j.isLt).get k = v.get (Equiv.swap i j k) := by
  rw [get_swap, Equiv.swap_apply_def]
  split
  · rfl
  · split <;> rfl

namespace Factors

/-! ### Exchanges first -/

/-- The right-hand side after the exchanges of the first `k` steps. -/
def exchange (f : Factors F n) (b : Vector F n) : Nat → Vector F n
  | 0 => b
  | k + 1 =>
    if h : k < n then
      (f.exchange b k).swap k (f.pivots.get ⟨k, h⟩) h (f.pivots.get ⟨k, h⟩).isLt
    else f.exchange b k

theorem exchange_succ (f : Factors F n) (b : Vector F n) (k : Fin n) :
    f.exchange b (k + 1) =
      (f.exchange b k).swap k (f.pivots.get k) k.isLt (f.pivots.get k).isLt := by
  rw [exchange, dif_pos k.isLt]

/-- Exchanges rearrange a right-hand side, and do nothing else to it. -/
theorem get_exchange (f : Factors F n) (b : Vector F n) {k : Nat} (hk : k ≤ n) (i : Fin n) :
    (f.exchange b k).get i = b.get (arrangement f.pivots k i) := by
  induction k generalizing i with
  | zero => rfl
  | succ k ih =>
    rw [exchange_succ f b ⟨k, hk⟩, arrangement_succ f.pivots ⟨k, hk⟩, get_swap_eq,
      Equiv.Perm.mul_apply]
    exact ih (by omega) _

variable [Scalar F]

/-- Row `i` of forward substitution, without its exchange. -/
def lowerStep (f : Factors F n) (x : Vector F n) (i : Fin n) : Vector F n :=
  x.set i (f.residue x i (indices (· < i))) i.isLt

/-- Forward substitution in the first `k` rows, without exchanges. -/
def lowerSolve (f : Factors F n) (c : Vector F n) : Nat → Vector F n
  | 0 => c
  | k + 1 => if h : k < n then f.lowerStep (f.lowerSolve c k) ⟨k, h⟩ else f.lowerSolve c k

theorem lowerSolve_succ (f : Factors F n) (c : Vector F n) (k : Fin n) :
    f.lowerSolve c (k + 1) = f.lowerStep (f.lowerSolve c k) k := by
  rw [lowerSolve, dif_pos k.isLt]

/-- A residue looks at its own entry and at those it is told to look at. -/
theorem residue_congr (f : Factors F n) {x y : Vector F n} {i : Fin n} {js : List (Fin n)}
    (hi : x.get i = y.get i) (hjs : ∀ j ∈ js, x.get j = y.get j) :
    f.residue x i js = f.residue y i js := by
  rw [residue, residue, hi]
  refine List.foldl_ext _ _ _ fun s j hj => ?_
  rw [hjs j hj]

/-- An exchange below row `k` may come before or after the step in row `k`. -/
theorem lowerStep_swap (f : Factors F n) (x : Vector F n) {k i p : Fin n} (hi : k < i)
    (hp : k < p) : f.lowerStep (x.swap i p i.isLt p.isLt) k =
      (f.lowerStep x k).swap i p i.isLt p.isLt := by
  have above {j : Fin n} (hj : j ≤ k) : Equiv.swap i p j = j :=
    Equiv.swap_apply_of_ne_of_ne (hj.trans_lt hi).ne (hj.trans_lt hp).ne
  have same {j : Fin n} (hj : j ≤ k) : (x.swap i p i.isLt p.isLt).get j = x.get j := by
    rw [get_swap_eq, above hj]
  have residue_eq : f.residue (x.swap i p i.isLt p.isLt) k (indices (· < k)) =
      f.residue x k (indices (· < k)) :=
    f.residue_congr (same le_rfl) fun j hj => same (of_decide_eq_true (mem_indices.mp hj)).le
  refine ext_get fun j => ?_
  rw [lowerStep, lowerStep, residue_eq, get_set, get_swap_eq, get_swap_eq, get_set]
  have row : k = j ↔ k = Equiv.swap i p j := by
    rw [← Equiv.swap_apply_eq_iff, above le_rfl]
  simp only [row]

/-- An exchange below the first `k` rows may come before or after their steps. -/
theorem lowerSolve_swap (f : Factors F n) (c : Vector F n) {k : Nat} {i p : Fin n}
    (hi : k ≤ i.val) (hp : k ≤ p.val) : f.lowerSolve (c.swap i p i.isLt p.isLt) k =
      (f.lowerSolve c k).swap i p i.isLt p.isLt := by
  induction k with
  | zero => rfl
  | succ k ih =>
    have hk : k < n := lt_trans hi i.isLt
    rw [lowerSolve_succ f _ ⟨k, hk⟩, lowerSolve_succ f _ ⟨k, hk⟩, ih (by omega) (by omega)]
    exact f.lowerStep_swap _ hi hp

/-- **Exchanges first.**  If no row above a step is exchanged, forward substitution may make all
    its exchanges before it starts. -/
theorem forward_eq (f : Factors F n) (b : Vector F n) (h : ∀ i, i ≤ f.pivots.get i) {k : Nat}
    (hk : k ≤ n) : f.forward b k = f.lowerSolve (f.exchange b k) k := by
  induction k with
  | zero => rfl
  | succ k ih =>
    have row : k < n := hk
    rw [exchange_succ f b ⟨k, hk⟩, lowerSolve_succ f _ ⟨k, hk⟩,
      f.lowerSolve_swap _ le_rfl (h ⟨k, hk⟩), ← ih (by omega), forward, dif_pos row]
    rfl

/-! ### Rows of forward substitution -/

theorem get_lowerStep (f : Factors F n) (x : Vector F n) (k i : Fin n) :
    (f.lowerStep x k).get i = if k = i then f.residue x k (indices (· < k)) else x.get i := by
  rw [lowerStep, get_set]

/-- Rows that have not had their turn are as they were. -/
theorem get_lowerSolve_below (f : Factors F n) (c : Vector F n) {k : Nat} {i : Fin n}
    (hi : k ≤ i.val) : (f.lowerSolve c k).get i = c.get i := by
  induction k with
  | zero => rfl
  | succ k ih =>
    have hk : k < n := lt_trans hi i.isLt
    have other : (⟨k, hk⟩ : Fin n) ≠ i := by
      rintro rfl
      exact absurd hi (Nat.not_succ_le_self k)
    rw [lowerSolve_succ f c ⟨k, hk⟩, get_lowerStep, if_neg other, ih (by omega)]

/-- Rows that have had their turn stay as they are. -/
theorem get_lowerSolve_above (f : Factors F n) (c : Vector F n) {k : Nat} {i : Fin n}
    (hi : i.val < k) : (f.lowerSolve c k).get i = (f.lowerSolve c (i + 1)).get i := by
  induction k with
  | zero => exact absurd hi (Nat.not_lt_zero i)
  | succ k ih =>
    rcases Nat.lt_succ_iff_lt_or_eq.mp hi with hlt | heq
    · by_cases hk : k < n
      · have other : (⟨k, hk⟩ : Fin n) ≠ i := by
          rintro rfl
          exact absurd hlt (lt_irrefl k)
        rw [lowerSolve_succ f c ⟨k, hk⟩, get_lowerStep, if_neg other, ih hlt]
      · rw [lowerSolve, dif_neg hk, ih hlt]
    · rw [heq]

/-- Each row is its residue among the finished rows. -/
theorem get_lowerSolve (f : Factors F n) (c : Vector F n) (i : Fin n) :
    (f.lowerSolve c n).get i =
      (indices (· < i)).foldl
        (fun s j => s - (f.lowerSolve c n).get j * f.packed.entry i j) (c.get i) := by
  rw [get_lowerSolve_above f c i.isLt, lowerSolve_succ, get_lowerStep, if_pos rfl, residue,
    get_lowerSolve_below f c le_rfl]
  refine List.foldl_ext _ _ _ fun s j hj => ?_
  have hj : j < i := of_decide_eq_true (mem_indices.mp hj)
  rw [get_lowerSolve_above f c hj, get_lowerSolve_above f c j.isLt]

end Factors

/-! ### The triangular systems -/

variable {K : Type} [ExactScalar K]

/-- The sum over some indices, as a sum over a set. -/
theorem sum_indices (test : Fin n → Bool) (g : Fin n → K) :
    ((indices test).map g).sum = ∑ j with test j = true, g j := by
  have nodup : (indices test).Nodup := (List.nodup_finRange n).filter _
  rw [← List.sum_toFinset g nodup]
  refine Finset.sum_congr ?_ fun _ _ => rfl
  ext j
  simp [mem_indices]

/-- To subtract one after the other is to subtract the sum. -/
theorem foldl_sub (js : List (Fin n)) (g : Fin n → K) (s : K) :
    js.foldl (fun s j => s - g j) s = s - (js.map g).sum := by
  induction js generalizing s with
  | nil => simp
  | cons j js ih => rw [List.foldl_cons, ih, List.map_cons, List.sum_cons, sub_sub]

namespace Factors

/-- What is taken off in a substitution. -/
theorem foldl_indices (f : Factors K n) (x : Vector K n) (i : Fin n) (test : Fin n → Bool)
    (s : K) : (indices test).foldl (fun s j => s - x.get j * f.packed.entry i j) s =
      s - ∑ j with test j = true, f.packed.entry i j * x.get j := by
  rw [foldl_sub, sum_indices]
  simp only [mul_comm]

/-- Forward substitution solves the lower system. -/
theorem lower_mulVec_lowerSolve (f : Factors K n) (c : Vector K n) :
    f.lower.mulVec (f.lowerSolve c n).get = c.get := by
  funext i
  have row := f.get_lowerSolve c i
  rw [foldl_indices] at row
  simp only [decide_eq_true_eq] at row
  rw [lower_mulVec, row, add_sub_cancel]

/-- The rows of the upper system from row `k` on are solved, the others still hold the right-hand
    side. -/
structure SolvedFrom (f : Factors K n) (y : Vector K n) (k : Nat) (x : Vector K n) : Prop where
  solved : ∀ i : Fin n, k ≤ i.val → f.upper.mulVec x.get i = y.get i
  waiting : ∀ i : Fin n, i.val < k → x.get i = y.get i

variable {f : Factors K n} {x y : Vector K n}

/-- A step of back substitution, in an exact field. -/
theorem get_backwardStep (f : Factors K n) (x : Vector K n) (k i : Fin n) :
    (f.backwardStep x k).get i = if k = i then
      (x.get k - ∑ j with k < j, f.packed.entry k j * x.get j) / f.packed.entry k k
    else x.get i := by
  rw [backwardStep, get_set, residue, foldl_indices]
  simp only [decide_eq_true_eq]

/-- One row of back substitution. -/
theorem SolvedFrom.step {k : Fin n} (h : f.SolvedFrom y (k + 1) x)
    (pivot : f.packed.entry k k ≠ 0) : f.SolvedFrom y k (f.backwardStep x k) where
  solved i hi := by
    -- a row looks at nothing above it
    have after (j : Fin n) (hj : k < j) : (f.backwardStep x k).get j = x.get j := by
      rw [get_backwardStep, if_neg hj.ne]
    have rest (hi : k ≤ i) : ∑ j with i < j, f.packed.entry i j * (f.backwardStep x k).get j =
        ∑ j with i < j, f.packed.entry i j * x.get j :=
      Finset.sum_congr rfl fun j hj => by rw [after j (hi.trans_lt (Finset.mem_filter.mp hj).2)]
    rw [upper_mulVec, rest hi]
    rcases eq_or_lt_of_le (show k ≤ i from hi) with rfl | hlt
    · rw [get_backwardStep, if_pos rfl, mul_div_cancel₀ _ pivot, add_sub_cancel]
      exact h.waiting k (Nat.lt_succ_self k)
    · rw [after i hlt, ← upper_mulVec]
      exact h.solved i hlt
  waiting i hi := by
    have other : k ≠ i := by
      rintro rfl
      exact absurd hi (lt_irrefl _)
    rw [get_backwardStep, if_neg other]
    exact h.waiting i (by omega)

/-- All rows of back substitution. -/
theorem SolvedFrom.backward (pivots : ∀ i, f.packed.entry i i ≠ 0) {k : Nat} (hk : k ≤ n)
    (h : f.SolvedFrom y k x) : f.SolvedFrom y 0 (f.backward k x) := by
  induction k generalizing x with
  | zero => exact h
  | succ k ih =>
    have row : k < n := hk
    rw [Factors.backward, dif_pos row]
    exact ih (by omega) (h.step (k := ⟨k, hk⟩) (pivots _))

/-- Back substitution solves the upper system, if there is no zero pivot. -/
theorem upper_mulVec_backward (pivots : ∀ i, f.packed.entry i i ≠ 0) (y : Vector K n) :
    f.upper.mulVec (f.backward n y).get = y.get := by
  have start : f.SolvedFrom y n y := ⟨fun i hi => absurd i.isLt (not_lt.mpr hi), fun _ _ => rfl⟩
  funext i
  exact (start.backward pivots le_rfl).solved i (Nat.zero_le i)

end Factors

end Drafting
