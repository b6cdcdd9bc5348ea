import Drafting.Binary64
import Drafting.Proofs.Linear.Substitution

namespace Drafting

/-!
# Solving in three passes

Solving exchanges two rows of the right-hand side before each row of forward substitution.  The
same comes out of three passes: all exchanges in order, then all rows of forward substitution, then
all rows of back substitution from the last one up.  Rows that are finished are not exchanged any
more, and rows that are exchanged are not touched yet; no law of arithmetic is used, and so this
holds of doubles to the last bit, infinite and undefined ones among them.

* `eq_foldl_finRange` — a recursion over the rows as a pass over them;
* `Factors.solve_eq_passes` — one solution, in three passes;
* `Factors.solveList_eq_passes` — for all factors that a matrix has.
-/

/-! ### Passes over all rows -/

variable {α : Type} {n : Nat}

/-- One row more. -/
theorem take_succ_finRange (k : Fin n) :
    (List.finRange n).take (k + 1) = (List.finRange n).take k ++ [k] := by
  have bound : k.val < (List.finRange n).length := by
    rw [List.length_finRange]
    exact k.isLt
  rw [List.take_succ_eq_append_getElem bound, List.getElem_finRange]
  rfl

/-- What is done row by row is done in a pass over all rows. -/
theorem eq_foldl_finRange {step : α → Fin n → α} {upTo : Nat → α}
    (h : ∀ k : Fin n, upTo (k + 1) = step (upTo k) k) :
    upTo n = (List.finRange n).foldl step (upTo 0) := by
  have pass : ∀ k, k ≤ n → upTo k = ((List.finRange n).take k).foldl step (upTo 0) := by
    intro k hk
    induction k with
    | zero => rfl
    | succ k ih =>
      rw [take_succ_finRange ⟨k, hk⟩, List.foldl_append, h ⟨k, hk⟩, ih (by omega)]
      rfl
  rw [pass n le_rfl, List.take_of_length_le (by rw [List.length_finRange])]

namespace Factors

variable {F : Type}

/-- The exchange of step `k`. -/
def exchangeStep (f : Factors F n) (x : Vector F n) (k : Fin n) : Vector F n :=
  x.swap k (f.pivots.get k) k.isLt (f.pivots.get k).isLt

theorem exchange_eq_pass (f : Factors F n) (b : Vector F n) :
    f.exchange b n = (List.finRange n).foldl f.exchangeStep b :=
  eq_foldl_finRange (f.exchange_succ b)

variable [Scalar F]

theorem lowerSolve_eq_pass (f : Factors F n) (c : Vector F n) :
    f.lowerSolve c n = (List.finRange n).foldl f.lowerStep c :=
  eq_foldl_finRange (f.lowerSolve_succ c)

/-- Back substitution as a pass over all rows from the last one up. -/
theorem backward_eq_pass (f : Factors F n) (x : Vector F n) :
    f.backward n x = (List.finRange n).reverse.foldl f.backwardStep x := by
  have pass : ∀ k, k ≤ n → ∀ x,
      f.backward k x = ((List.finRange n).take k).reverse.foldl f.backwardStep x := by
    intro k hk
    induction k with
    | zero => exact fun _ => rfl
    | succ k ih =>
      intro x
      have row : k < n := hk
      rw [take_succ_finRange ⟨k, hk⟩, List.reverse_append, backward, dif_pos row, ih (by omega)]
      rfl
  rw [pass n le_rfl, List.take_of_length_le (by rw [List.length_finRange])]

/-! ### Three passes -/

/-- The solution for `b` in three passes: all exchanges in order, all rows of forward substitution
    from the first one down, all rows of back substitution from the last one up. -/
def passes (f : Factors F n) (b : Vector F n) : Vector F n :=
  let exchanged := (List.finRange n).foldl f.exchangeStep b
  let lowered := (List.finRange n).foldl f.lowerStep exchanged
  (List.finRange n).reverse.foldl f.backwardStep lowered

theorem solve_eq_passes (f : Factors F n) (b : Vector F n) (h : ∀ k, k ≤ f.pivots.get k) :
    f.solve b = f.passes b := by
  rw [solve, f.forward_eq b h le_rfl, exchange_eq_pass, lowerSolve_eq_pass, backward_eq_pass]
  rfl

/-- Elimination exchanges each row with itself or a row below. -/
theorem le_pivots_ofMat {m : Nat} {a : Mat F n m} {f : Factors F n} (h : ofMat a = .ok f)
    (k : Fin n) : k ≤ f.pivots.get k := by
  unfold ofMat at h
  split at h
  · next square =>
    subst square
    cases h
    exact le_pivots a k
  · cases h

/-- **Three passes.**  Whatever the scalars and their operations are, factors that exchange no row
    above a step solve for every right-hand side as in three passes.  The factors of a matrix are
    of this kind, whatever its entries are, and what comes out for them is the same. -/
theorem solveList_eq_passes :
    (∀ (f : Factors F n) (b : Vector F n), (∀ k, k ≤ f.pivots.get k) →
      f.solveList b.toList = .ok (f.passes b)) ∧
    (∀ {m : Nat} (a : Mat F n m) (f : Factors F n), ofMat a = .ok f →
      (∀ k, k ≤ f.pivots.get k ∧ (f.pivots.get k).val < n) ∧
        ∀ b : Vector F n, f.solveList b.toList = .ok (f.passes b)) := by
  have solves (f : Factors F n) (b : Vector F n) (h : ∀ k, k ≤ f.pivots.get k) :
      f.solveList b.toList = .ok (f.passes b) := by
    rw [solveList, ofListExact?_eq_some.mpr rfl]
    exact congrArg Except.ok (f.solve_eq_passes b h)
  refine ⟨solves, fun a f hf => ⟨fun k => ?_, fun b => ?_⟩⟩
  · exact ⟨le_pivots_ofMat hf k, (f.pivots.get k).isLt⟩
  · exact solves f b (le_pivots_ofMat hf)

/-- Factors with an undefined multiplier and a zero on the diagonal, all exchanges with the last
    row. -/
def undefinedMultiplier : Factors Float 3 :=
  ⟨Mat.ofFn !![2, 1, 3; 0.5, 0, 1; 0.0 / 0.0, -1, 4], #v[2, 2, 2]⟩

/-- A matrix with an entry that is undefined. -/
def undefinedEntry : Mat Float 2 2 := Mat.ofFn !![0.0 / 0.0, 1; 2, 3]

/-- Factors with an undefined multiplier, and those of a matrix with an undefined entry. -/
theorem solveList_eq_passes_undefined :
    (∀ k, k ≤ undefinedMultiplier.pivots.get k) ∧
      undefinedMultiplier.solveList [1, -2, 1e300] =
        .ok (undefinedMultiplier.passes #v[1, -2, 1e300]) ∧
      ∃ f, ofMat undefinedEntry = .ok f ∧ f.solveList [1, 2] = .ok (f.passes #v[1, 2]) := by
  have below : ∀ k, k ≤ undefinedMultiplier.pivots.get k := by decide
  have factors : ofMat undefinedEntry = .ok (ofSquare undefinedEntry) := rfl
  refine ⟨below, solveList_eq_passes.1 undefinedMultiplier #v[1, -2, 1e300] below, _, factors, ?_⟩
  exact (solveList_eq_passes.2 undefinedEntry _ factors).2 #v[1, 2]

end Factors

end Drafting
