import Drafting.Proofs.Result
import Drafting.Relaxation.Relax

namespace Drafting

/-!
# Flags of relaxation

A condition is dropped only for good, and the point moves only while one is dropped.  So the
conditions that are kept are all met at the last point, and the flags stand where the conditions
stood before any were dropped.

* `relax_of_met`, `relax_of_unmet` — the two kinds of levels;
* `exists_relax` — relaxation never fails;
* `length_of_relax` — there is a flag for each condition;
* `isMet_of_relax` — a flag that is true tells the truth;
* `relax_keeps` — what the minimizer keeps, relaxation keeps.
-/

variable {ε α β : Type} {minimizer : List α → β → Option β} {isMet : β → α → Bool}
  {conditions : List α} {x : β} {flags : List Bool} {final : β}

/-! ### Levels -/

/-- The end of relaxation: all that is left is met. -/
theorem relax_of_met (hne : conditions ≠ [])
    (h : conditions.findIdx? (fun c => !isMet ((minimizer conditions x).getD x) c) = none) :
    (relax minimizer isMet conditions x : Except ε _) =
      .ok (conditions.map fun _ => true, (minimizer conditions x).getD x) := by
  rw [relax, if_neg (by simpa using hne)]
  dsimp only
  split
  · rfl
  · next i found => cases found.symm.trans h

/-- A level of relaxation that drops a condition.  It passes on how the level below ends, with one
    flag more. -/
theorem relax_of_unmet (hne : conditions ≠ []) {i : Nat}
    (h : conditions.findIdx? (fun c => !isMet ((minimizer conditions x).getD x) c) = some i) :
    (relax minimizer isMet conditions x : Except ε _) =
      (relax minimizer isMet (conditions.eraseIdx i) ((minimizer conditions x).getD x)).map
        fun rest => (rest.1.insertIdx i false, rest.2) := by
  rw [relax, if_neg (by simpa using hne)]
  dsimp only
  split
  · next found => cases found.symm.trans h
  · next j found =>
    obtain rfl := Option.some.inj (found.symm.trans h)
    rfl

/-! ### Answers -/

/-- **Relaxation never fails.** -/
theorem exists_relax (minimizer : List α → β → Option β) (isMet : β → α → Bool)
    (conditions : List α) (x : β) :
    ∃ flags final, (relax minimizer isMet conditions x : Except ε _) = .ok (flags, final) := by
  fun_induction relax minimizer isMet conditions x with
  | case1 => exact ⟨_, _, rfl⟩
  | case2 => exact ⟨_, _, rfl⟩
  | case3 conditions x _ point i found ih =>
    obtain ⟨flags, final, h⟩ := ih
    rw [h]
    exact ⟨_, _, rfl⟩

/-- There is a flag for each condition. -/
theorem length_of_relax
    (h : (relax minimizer isMet conditions x : Except ε _) = .ok (flags, final)) :
    flags.length = conditions.length := by
  fun_induction relax minimizer isMet conditions x generalizing flags final with
  | case1 conditions x none =>
    cases h
    rw [List.isEmpty_iff.mp none]
    rfl
  | case2 =>
    cases h
    exact List.length_map _
  | case3 conditions x _ point i found =>
    rename_i ih
    obtain ⟨⟨rest, last⟩, hrest, h⟩ := bind_eq_ok.mp h
    cases h
    have kept := ih hrest
    have hlt := findIdx?_lt_length found
    rw [List.length_eraseIdx_of_lt hlt] at kept
    rw [List.length_insertIdx_of_le_length (by omega)]
    omega

/-- **A flag that is true tells the truth.** -/
theorem isMet_of_relax
    (h : (relax minimizer isMet conditions x : Except ε _) = .ok (flags, final)) {j : Nat}
    (hj : flags[j]? = some true) : ∃ c, conditions[j]? = some c ∧ isMet final c = true := by
  fun_induction relax minimizer isMet conditions x generalizing flags final j with
  | case1 =>
    cases h
    cases hj
  | case2 conditions x _ point =>
    rename_i found
    cases h
    rw [List.getElem?_map] at hj
    obtain ⟨c, hc, -⟩ := Option.map_eq_some_iff.mp hj
    have met := List.findIdx?_eq_none_iff.mp found c (List.mem_of_getElem? hc)
    exact ⟨c, hc, by simpa using met⟩
  | case3 conditions x _ point i found =>
    rename_i ih
    obtain ⟨⟨rest, last⟩, hrest, h⟩ := bind_eq_ok.mp h
    cases h
    -- the flag that was put in is false, and the others are flags of the conditions left
    rw [List.getElem?_insertIdx] at hj
    split at hj
    · next before =>
      obtain ⟨c, hc, met⟩ := ih hrest hj
      exact ⟨c, by rwa [List.getElem?_eraseIdx_of_lt before] at hc, met⟩
    split at hj
    · split at hj <;> cases hj
    · obtain ⟨c, hc, met⟩ := ih hrest hj
      refine ⟨c, ?_, met⟩
      rw [List.getElem?_eraseIdx_of_ge (by omega)] at hc
      rwa [Nat.sub_add_cancel (by omega)] at hc

/-- What the minimizer keeps of a point for any of the conditions, relaxation keeps. -/
theorem relax_keeps {P : β → Prop}
    (hmin : ∀ left, left.Sublist conditions → ∀ x y, P x → minimizer left x = some y → P y)
    (h : (relax minimizer isMet conditions x : Except ε _) = .ok (flags, final)) (hx : P x) :
    P final := by
  have moved : ∀ left, left.Sublist conditions → ∀ x, P x → P ((minimizer left x).getD x) := by
    intro left hleft x hx
    cases h : minimizer left x with
    | none => exact hx
    | some y => exact hmin left hleft x y hx h
  fun_induction relax minimizer isMet conditions x generalizing flags final with
  | case1 =>
    cases h
    exact hx
  | case2 conditions x =>
    cases h
    exact moved conditions (.refl _) x hx
  | case3 conditions x _ point i found =>
    rename_i ih
    obtain ⟨⟨rest, last⟩, hrest, h⟩ := bind_eq_ok.mp h
    cases h
    have erased := List.eraseIdx_sublist conditions i
    exact ih (fun left hleft => hmin left (hleft.trans erased)) hrest
      (moved conditions (.refl _) x hx) (fun left hleft => moved left (hleft.trans erased))

end Drafting
