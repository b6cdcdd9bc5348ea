import Drafting.Proofs.Double.Order
import Drafting.Proofs.LeastSquares.Rows
import Drafting.Proofs.Result

namespace Drafting

/-!
# Results of searches are true

What a search says of the point it ends at: the error there, which is at most that at the guess, how
many steps it took, and why it ended.

* `Outcome.Truthful` — what a result says is so;
* `Iterate.Sound` — what every step keeps, and `Iterate.truthful_of_step` — what the last one shows;
* `minimizeWithin_agrees` — searches with their buffers.
-/

variable {F : Type} [Scalar F] {m n : Nat}

/-- What a result says is so, if the linearization is `first` at the guess and `here` at the end. -/
structure Outcome.Truthful (settings : Settings F) (first here : Linearization F m n)
    (o : Outcome F n) : Prop where
  error : o.error = here.error
  notWorse : o.error = first.error ∨ Scalar.less o.error first.error = true
  bounded : ∀ limit, settings.maxSteps = some limit → o.iterations ≤ limit
  small : o.termination = .errorBelowEpsilon → Scalar.less o.error settings.epsilon = true
  flat : o.termination = .flatJacobian →
    ∀ i j, Scalar.less (Scalar.abs (here.jacobian.entry i j)) settings.epsilon = true
  usedUp : o.termination = .maxSteps → settings.maxSteps = some o.iterations

/-- A Jacobian is flat iff all its slopes are below epsilon. -/
theorem Linearization.isFlat_iff {epsilon : F} {l : Linearization F m n} :
    l.isFlat epsilon = true ↔
      ∀ i j, Scalar.less (Scalar.abs (l.jacobian.entry i j)) epsilon = true := by
  simp only [isFlat, Vector.all_eq_true]
  exact ⟨fun h i j => h i i.isLt j j.isLt, fun h i hi j hj => h ⟨i, hi⟩ ⟨j, hj⟩⟩

namespace Iterate

variable {settings : Settings F} {system : ResidualSystem F m n} {p p' : Iterate F n}
  {o : Outcome F n} {first here there : Linearization F m n}

/-- The error is at most the one at the guess, and the steps are within their limit. -/
structure Sound (settings : Settings F) (first here : Linearization F m n) (p : Iterate F n) :
    Prop where
  notWorse : here.error = first.error ∨ Scalar.less here.error first.error = true
  bounded : ∀ limit, settings.maxSteps = some limit → p.iterations ≤ limit

/-- There is a step left to take. -/
def HasRoom (settings : Settings F) (p : Iterate F n) : Prop :=
  ∀ limit, settings.maxSteps = some limit → p.iterations < limit

/-- The point that a step tries. -/
def trial (p : Iterate F n) (here : Linearization F m n) : Vector F n :=
  Vector.zipWith (· - ·) p.point ((NormalEquations.ofLinearization here).solve p.damping)

/-- A step is tried, unless the steps are used up. -/
theorem step_cases (here_eq : system.linearizeAt p.point .blank = .ok here)
    {r : Iterate F n ⊕ Outcome F n} (h : p.step settings system = .ok r) :
    (∃ limit, settings.maxSteps = some limit ∧ limit ≤ p.iterations ∧
      r = .inr (p.outcome here.error .maxSteps)) ∨
    (p.HasRoom settings ∧ ∃ there, system.linearizeAt (p.trial here) .blank = .ok there ∧
      r = p.judge settings (p.trial here) here there) := by
  obtain ⟨x, damping, k⟩ := p
  rw [step_eq here_eq] at h
  split at h
  · next used =>
    cases hlimit : settings.maxSteps with
    | none => simp [hlimit] at used
    | some limit =>
      rw [hlimit] at used
      exact Or.inl ⟨limit, rfl, by simpa using used, (Except.ok.inj h).symm⟩
  · next unused =>
    refine Or.inr ⟨fun limit hlimit => by simpa [hlimit] using unused, ?_⟩
    dsimp only at h
    split at h
    · obtain ⟨there, hthere, hjudge⟩ := map_eq_ok.mp h
      exact ⟨there, hthere, hjudge.symm⟩
    · cases h

/-- How a trial is judged. -/
inductive Judged (settings : Settings F) (p : Iterate F n) (trial : Vector F n)
    (here there : Linearization F m n) : Iterate F n ⊕ Outcome F n → Prop
  /-- The error is smaller, and the search goes on from the trial. -/
  | accepted (better : Scalar.less there.error here.error = true) :
    Judged settings p trial here there
      (.inl ⟨trial, p.damping / settings.lower, p.iterations + 1⟩)
  /-- The error is smaller, and the search ends at the trial. -/
  | arrived (better : Scalar.less there.error here.error = true) {why : Termination}
      (small : why = .errorBelowEpsilon → Scalar.less there.error settings.epsilon = true)
      (flat : why = .flatJacobian → there.isFlat settings.epsilon = true)
      (left : why ≠ .maxSteps) :
    Judged settings p trial here there
      (.inr ⟨trial, there.error, p.iterations + 1, p.damping / settings.lower, why⟩)
  /-- The error is not smaller, and the search goes on with more damping. -/
  | rejected (worse : Scalar.less there.error here.error = false)
      (finite : Scalar.isFinite (p.damping * settings.raise) = true) :
    Judged settings p trial here there
      (.inl ⟨p.point, p.damping * settings.raise, p.iterations + 1⟩)
  /-- The error is not smaller, and the search ends where it was. -/
  | stalled (worse : Scalar.less there.error here.error = false) :
    Judged settings p trial here there
      (.inr ⟨p.point, here.error, p.iterations + 1, p.damping * settings.raise, .stalled⟩)

/-- What a step says about a trial is true of it. -/
theorem judged (settings : Settings F) (p : Iterate F n) (trial : Vector F n)
    (here there : Linearization F m n) :
    Judged settings p trial here there (p.judge settings trial here there) := by
  unfold judge
  split
  · next better =>
    dsimp only
    split
    · next small => exact .arrived better (fun _ => small) nofun nofun
    split
    · next flat => exact .arrived better nofun (fun _ => flat) nofun
    split
    · exact .arrived better nofun nofun nofun
    · exact .accepted better
  · next worse =>
    have worse := Bool.eq_false_iff.mpr worse
    dsimp only
    split
    · exact .stalled worse
    · next goes_on =>
      rw [Bool.or_eq_true, not_or] at goes_on
      exact .rejected worse (by simpa using goes_on.2)

variable (htrans : ∀ x y z : F, Scalar.less x y = true → Scalar.less y z = true →
  Scalar.less x z = true)
include htrans

/-- A smaller error is at most the one at the guess. -/
theorem Sound.notWorse_of_less (hp : p.Sound settings first here)
    (better : Scalar.less there.error here.error = true) :
    there.error = first.error ∨ Scalar.less there.error first.error = true := by
  rcases hp.notWorse with heq | hless
  · exact Or.inr (heq ▸ better)
  · exact Or.inr (htrans _ _ _ better hless)

/-- **One step.**  The search goes on with an error that is at most the one at the guess. -/
theorem sound_of_step (here_eq : system.linearizeAt p.point .blank = .ok here)
    (hp : p.Sound settings first here) (h : p.step settings system = .ok (.inl p')) :
    ∃ there, system.linearizeAt p'.point .blank = .ok there ∧ p'.Sound settings first there := by
  rcases step_cases here_eq h with ⟨limit, -, -, hr⟩ | ⟨room, there, there_eq, hr⟩
  · cases hr
  · have verdict := judged settings p (p.trial here) here there
    rw [← hr] at verdict
    cases verdict with
    | accepted better =>
      exact ⟨there, there_eq, hp.notWorse_of_less htrans better,
        fun limit hlimit => room limit hlimit⟩
    | rejected worse _ =>
      exact ⟨here, here_eq, hp.notWorse, fun limit hlimit => room limit hlimit⟩

/-- **The last step.**  The result is true. -/
theorem truthful_of_step (here_eq : system.linearizeAt p.point .blank = .ok here)
    (hp : p.Sound settings first here) (h : p.step settings system = .ok (.inr o)) :
    ∃ there, system.linearizeAt o.point .blank = .ok there ∧ o.Truthful settings first there := by
  rcases step_cases here_eq h with ⟨limit, hlimit, hle, hr⟩ | ⟨room, there, there_eq, hr⟩
  · -- the limit has been reached, and the search ends where it is
    obtain rfl := Sum.inr.inj hr
    have used : limit = p.iterations := Nat.le_antisymm hle (hp.bounded limit hlimit)
    exact ⟨here, here_eq, {
      error := rfl
      notWorse := hp.notWorse
      bounded := hp.bounded
      small := nofun
      flat := nofun
      usedUp := fun _ => hlimit.trans (congrArg some used) }⟩
  · -- there is a trial, and the search ends with it or refuses it
    have verdict := judged settings p (p.trial here) here there
    rw [← hr] at verdict
    cases verdict with
    | arrived better small flat left =>
      exact ⟨there, there_eq, {
        error := rfl
        notWorse := hp.notWorse_of_less htrans better
        bounded := fun limit hlimit => room limit hlimit
        small := small
        flat := fun hwhy => Linearization.isFlat_iff.mp (flat hwhy)
        usedUp := fun hwhy => absurd hwhy left }⟩
    | stalled worse =>
      exact ⟨here, here_eq, {
        error := rfl
        notWorse := hp.notWorse
        bounded := fun limit hlimit => room limit hlimit
        small := nofun
        flat := nofun
        usedUp := nofun }⟩

/-- **All steps.** -/
theorem truthful_of_run (here_eq : system.linearizeAt p.point .blank = .ok here)
    (hp : p.Sound settings first here) {fuel : Nat}
    (h : p.run settings system fuel = some (.ok o)) :
    ∃ there, system.linearizeAt o.point .blank = .ok there ∧ o.Truthful settings first there := by
  induction fuel generalizing p here with
  | zero => cases h
  | succ fuel ih =>
    rw [run] at h
    cases hstep : p.step settings system with
    | error e => rw [hstep] at h; cases h
    | ok r =>
      rw [hstep] at h
      cases r with
      | inr o' =>
        obtain rfl := Except.ok.inj (Option.some.inj h)
        exact truthful_of_step htrans here_eq hp hstep
      | inl p' =>
        obtain ⟨there, there_eq, hp'⟩ := sound_of_step htrans here_eq hp hstep
        exact ih there_eq hp' h

end Iterate

/-! ### Whole searches -/

section Search

variable {settings : Settings F} {system : ResidualSystem F m n} {guess : List F} {fuel : Nat}
  {o : Outcome F n} {x : Vector F n} {l buffer : Linearization F m n}

omit [Scalar F] in
theorem ResidualSystem.linearizeAt_eq_ok :
    system.linearizeAt x buffer = .ok l ↔ system x buffer = .ok l :=
  mapError_eq_ok

/-- A search with a result has valid settings, and it started from the guess. -/
theorem minimizeWithin_eq_ok {d : Descent F m n} {why : Termination} :
    minimizeWithin fuel settings system guess = some (.ok (d, why)) ↔
      settings.validate = .ok () ∧ ∃ x d₀, x.toList = guess ∧
        Descent.start settings system x = .ok d₀ ∧
        d₀.run settings system fuel = some (.ok (d, why)) := by
  constructor
  · intro h
    unfold minimizeWithin at h
    split at h
    · cases h
    next valid =>
    split at h
    · cases h
    next x hx =>
    split at h
    · cases h
    next d₀ hstart =>
    exact ⟨valid, x, d₀, ofListExact?_eq_some.mp hx, hstart, h⟩
  · rintro ⟨valid, x, d₀, hx, hstart, hrun⟩
    unfold minimizeWithin
    rw [valid, ofListExact?_eq_some.mpr hx]
    dsimp only
    rw [hstart]
    exact hrun

/-- A plain search with a result started from the guess. -/
theorem searchWithin_eq_ok (h : searchWithin fuel settings system guess = some (.ok o)) :
    ∃ x first, x.toList = guess ∧ system.linearizeAt x .blank = .ok first ∧
      Iterate.run settings system fuel ⟨x, settings.initialDamping, 0⟩ = some (.ok o) := by
  unfold searchWithin at h
  cases hvalid : settings.validate with
  | error fault => rw [hvalid] at h; cases h
  | ok _ =>
    rw [hvalid] at h
    cases hx : ofListExact? n guess with
    | none => rw [hx] at h; cases h
    | some x =>
      rw [hx] at h
      dsimp only at h
      cases hfirst : system.linearizeAt x .blank with
      | error e => rw [hfirst] at h; cases h
      | ok first =>
        rw [hfirst] at h
        dsimp only at h
        split at h
        · exact ⟨x, first, ofListExact?_eq_some.mp hx, hfirst, h⟩
        · cases h

/-- **Searches with their buffers.**  If linearizations overwrite their buffers, a search does what
    the plain iteration does, which works out everything from the current point in every step; and
    what its result says of the point is so. -/
theorem minimizeWithin_agrees (h : system.Overwrites)
    (htrans : ∀ x y z : F, Scalar.less x y = true → Scalar.less y z = true →
      Scalar.less x z = true)
    (settings : Settings F) (guess : List F) (fuel : Nat) :
    (minimizeWithin fuel settings system guess).map (Except.map fun r => r.1.outcome r.2) =
      searchWithin fuel settings system guess ∧
    ∀ d why, minimizeWithin fuel settings system guess = some (.ok (d, why)) →
      ∃ x first here, x.toList = guess ∧ (∀ buffer, system x buffer = .ok first) ∧
        (∀ buffer, system d.point buffer = .ok here) ∧
        (d.outcome why).Truthful settings first here := by
  have agree := minimizeWithin_eq_searchWithin h settings guess fuel
  refine ⟨agree, fun d why hd => ?_⟩
  rw [hd] at agree
  obtain ⟨x, first, hx, hfirst, hrun⟩ := searchWithin_eq_ok agree.symm
  have sound : Iterate.Sound settings first first ⟨x, settings.initialDamping, 0⟩ :=
    ⟨Or.inl rfl, fun limit _ => Nat.zero_le limit⟩
  obtain ⟨here, hhere, truthful⟩ := Iterate.truthful_of_run htrans hfirst sound hrun
  have overwritten : ∀ {y l}, system.linearizeAt y .blank = .ok l →
      ∀ buffer, system y buffer = .ok l := by
    intro y l hl buffer
    rw [h y buffer .blank]
    exact ResidualSystem.linearizeAt_eq_ok.mp hl
  exact ⟨x, first, here, hx, overwritten hfirst, overwritten hhere, truthful⟩

/-- A search on doubles, for the solution of `x - 2 = 0` near one. -/
theorem minimizeWithin_agrees_xMinusTwo :
    let system : ResidualSystem Float 1 1 :=
      (⟨["x"], [⟨[.load 0, .constant 2.0, .binary .sub], 1⟩]⟩ : Equations Float).residualSystem 1
    system.Overwrites ∧
      (∀ x y z : Float, Scalar.less x y = true → Scalar.less y z = true →
        Scalar.less x z = true) ∧
      (minimizeWithin 20 .default system [1.0]).any Except.isOk ∧
      (minimizeWithin 20 .default system [1.0]).map (Except.map fun r => r.1.outcome r.2) =
        searchWithin 20 .default system [1.0] := by
  intro system
  have overwrites : system.Overwrites := Equations.residualSystem_overwrites _ 1
  have trans : ∀ x y z : Float, Scalar.less x y = true → Scalar.less y z = true →
      Scalar.less x z = true := fun _ _ _ => Double.less_trans
  exact ⟨overwrites, trans, by decide +kernel,
    (minimizeWithin_agrees overwrites trans .default [1.0] 20).1⟩

end Search

end Drafting
