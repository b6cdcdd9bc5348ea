namespace Drafting

/-!
# Relaxation

A set of conditions may be more than can be met at once.  Relaxation minimizes over all of them;
when one is not met at the point found, the first such is dropped and the rest is tried again from
that point.  Neither the conditions nor the minimizer are looked into here.

A failure of the levels below would be passed on; that there is none is a theorem.
-/

variable {ε α β : Type}

theorem findIdx?_lt_length {p : α → Bool} {xs : List α} {i : Nat} (h : xs.findIdx? p = some i) :
    i < xs.length := by
  obtain ⟨hlt, _⟩ := List.findIdx?_eq_some_iff_getElem.mp h
  exact hlt

/-- Drops conditions from `conditions` until all that are left are met, starting at `x`.  The
    minimizer may have no answer; then the point stays.  The answer has a flag for each condition,
    true iff it was not dropped, and the last point. -/
def relax (minimizer : List α → β → Option β) (isMet : β → α → Bool) (conditions : List α)
    (x : β) : Except ε (List Bool × β) :=
  if conditions.isEmpty then .ok ([], x)
  else
    let point := (minimizer conditions x).getD x
    match _found : conditions.findIdx? (fun c => !isMet point c) with
    | none => .ok (conditions.map fun _ => true, point)
    | some i => do
      let (flags, final) ← relax minimizer isMet (conditions.eraseIdx i) point
      return (flags.insertIdx i false, final)
termination_by conditions.length
decreasing_by
  have := findIdx?_lt_length _found
  rw [List.length_eraseIdx_of_lt this]
  omega

end Drafting
