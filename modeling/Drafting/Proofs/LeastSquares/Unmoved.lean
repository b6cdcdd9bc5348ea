import Drafting.Proofs.LeastSquares.Normal
import Drafting.Proofs.LeastSquares.Truth
import Drafting.Proofs.Program.Ignored

namespace Drafting

/-!
# Variables that a search does not move

In exact arithmetic, a variable that no equation refers to keeps its value in a search.  The column
of the Jacobian that belongs to the variable is zero at every point, so every step solves damped
equations in which the variable has nothing to do with the others, and moves it by zero.  That the
damping stays positive is what makes the steps the solutions of their equations.

* `Equations.ignores_residualSystem` — the column of the Jacobian;
* `Iterate.Leaves.step`, `Iterate.Leaves.run` — one step, and all of them;
* `get_of_minimizeWithin` — whole searches.
-/

variable {K : Type} [ExactScalar K] {m n : Nat} {j : Fin n}

/-! ### A column of zeros -/

/-- No residual depends on variable `j`. -/
def Linearization.FlatAlong (j : Fin n) (l : Linearization K m n) : Prop :=
  ∀ i, l.jacobian.entry i j = 0

theorem Linearization.flatAlong_blank : (blank : Linearization K m n).FlatAlong j := by
  intro i
  simp [blank, Mat.entry]

/-- A flat row keeps a linearization flat. -/
theorem Linearization.FlatAlong.write {l : Linearization K m n} (hl : l.FlatAlong j) (i : Fin m)
    {d : Dual K} (hd : d.Flat j) : (l.write i d).FlatAlong j := by
  intro i'
  show ((l.write i d).jacobian.get i').get j = 0
  simp only [Linearization.write, get_set]
  split
  · rw [get_ofFn]
    -- the partial along `j` is zero, and where there is none the entry stays
    cases hs : d.partials[(j : Nat)]? with
    | none => exact hl i
    | some slope => exact hd slope hs
  · exact hl i'

/-- Wherever the system has a linearization, no residual depends on variable `j`. -/
def ResidualSystem.Ignores (system : ResidualSystem K m n) (j : Fin n) : Prop :=
  ∀ x l, system.linearizeAt x .blank = .ok l → l.FlatAlong j

/-- **Equations that ignore a variable have a column of zeros.** -/
theorem Equations.ignores_residualSystem {s : Equations K}
    (h : ∀ p ∈ s.programs, p.Ignores j) : (s.residualSystem n).Ignores j := by
  intro x l hl
  refine foldlM_keeps (fun i _ b b' hb hb' => ?_) Linearization.flatAlong_blank
    (ResidualSystem.linearizeAt_eq_ok.mp hl)
  obtain ⟨d, hd, hwrite⟩ := bind_eq_ok.mp hb'
  obtain rfl := Except.ok.inj hwrite
  exact hb.write i (h _ (List.get_mem _ _) x.toList d hd)

/-! ### Steps -/

variable [LinearOrder K] [IsStrictOrderedRing K] [ExactOrder K]

namespace Iterate

variable {settings : Settings K} {system : ResidualSystem K m n} {p : Iterate K n}
  {o : Outcome K n} {x : K}

/-- The damping is positive, and variable `j` is at `x`. -/
structure Leaves (j : Fin n) (x : K) (p : Iterate K n) : Prop where
  damping : 0 < p.damping
  point : p.point.get j = x

/-- The point that a step tries has the variable where it was. -/
theorem Leaves.get_trial {here : Linearization K m n} (hp : p.Leaves j x)
    (hhere : here.FlatAlong j) : (p.trial here).get j = x := by
  have moved : (p.trial here).get j =
      p.point.get j - ((NormalEquations.ofLinearization here).solve p.damping).get j :=
    get_zipWith _ _ _ j
  rw [moved, NormalEquations.get_solve_eq_zero hhere hp.damping, sub_zero, hp.point]

/-- What a step leads to: the next iterate leaves the variable, or the result does. -/
def LeavesAfter (j : Fin n) (x : K) : Iterate K n ⊕ Outcome K n → Prop
  | .inl p => p.Leaves j x
  | .inr o => o.point.get j = x

/-- Whatever the verdict on a trial is, the variable is left. -/
theorem Leaves.judge {here : Linearization K m n} (hp : p.Leaves j x)
    (hvalid : settings.validate = .ok ()) (hhere : here.FlatAlong j) (there : Linearization K m n) :
    LeavesAfter j x (p.judge settings (p.trial here) here there) := by
  obtain ⟨-, raise, lower⟩ := Settings.positive_of_validate hvalid
  have tried := hp.get_trial hhere
  have verdict := judged settings p (p.trial here) here there
  generalize p.judge settings (p.trial here) here there = r at verdict
  cases verdict with
  | accepted => exact ⟨div_pos hp.damping lower, tried⟩
  | rejected => exact ⟨mul_pos hp.damping raise, hp.point⟩
  | arrived => exact tried
  | stalled => exact hp.point

/-- **One step.** -/
theorem Leaves.step (hp : p.Leaves j x) (hvalid : settings.validate = .ok ())
    (hsystem : system.Ignores j) {r : Iterate K n ⊕ Outcome K n}
    (h : p.step settings system = .ok r) : LeavesAfter j x r := by
  obtain ⟨here, here_eq, -⟩ := bind_eq_ok.mp h
  rcases step_cases here_eq h with ⟨_, -, -, rfl⟩ | ⟨-, there, -, rfl⟩
  · exact hp.point
  · exact hp.judge hvalid (hsystem p.point here here_eq) there

/-- **All steps.** -/
theorem Leaves.run (hp : p.Leaves j x) (hvalid : settings.validate = .ok ())
    (hsystem : system.Ignores j) {fuel : Nat} (h : p.run settings system fuel = some (.ok o)) :
    o.point.get j = x := by
  induction fuel generalizing p with
  | zero => cases h
  | succ fuel ih =>
    rw [Iterate.run] at h
    cases hstep : p.step settings system with
    | error e => rw [hstep] at h; cases h
    | ok r =>
      rw [hstep] at h
      have left := hp.step hvalid hsystem hstep
      cases r with
      | inl p' => exact ih left h
      | inr o' =>
        obtain rfl := Except.ok.inj (Option.some.inj h)
        exact left

end Iterate

/-- **Whole searches.**  Where the system ignores a variable, the variable ends where it started. -/
theorem get_of_minimizeWithin {settings : Settings K} {system : ResidualSystem K m n}
    {guess : List K} {fuel : Nat} {d : Descent K m n} {why : Termination}
    (hoverwrites : system.Overwrites) (hsystem : system.Ignores j)
    (hvalid : settings.validate = .ok ())
    (h : minimizeWithin fuel settings system guess = some (.ok (d, why))) :
    d.point.toList[(j : Nat)]? = guess[(j : Nat)]? := by
  have agree := minimizeWithin_eq_searchWithin hoverwrites settings guess fuel
  rw [h] at agree
  obtain ⟨x, -, rfl, -, hrun⟩ := searchWithin_eq_ok agree.symm
  have damping := (Settings.positive_of_validate hvalid).1
  have start : Iterate.Leaves j (x.get j) ⟨x, settings.initialDamping, 0⟩ := ⟨damping, rfl⟩
  have unmoved : d.point.get j = x.get j := start.run hvalid hsystem hrun
  rw [getElem?_toList, getElem?_toList, unmoved]

end Drafting
