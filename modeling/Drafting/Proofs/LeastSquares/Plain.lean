import Drafting.LeastSquares.Descent
import Drafting.Proofs.Result

namespace Drafting

/-!
# The search without its buffers

The search keeps the linearization of the last accepted point in one of two buffers, and the normal
equations until they are stale.  Here is the same iteration without any of that: each step works out
residuals, Jacobian and normal equations from the point alone.

* `Iterate.step`, `searchWithin` — the plain iteration;
* `Descent.Faithful` — what the buffers of a search hold;
* `Descent.forget_step` — one step of the search is one plain step;
* `minimizeWithin_eq_searchWithin` — and so for whole searches.
-/

variable {F : Type} [Scalar F] {m n : Nat}

/-- Valid settings have a positive epsilon and damping, and factors above one. -/
theorem Settings.of_validate {settings : Settings F} (h : settings.validate = .ok ()) :
    Scalar.less Scalar.zero settings.epsilon = true ∧
      Scalar.less Scalar.zero settings.initialDamping = true ∧
      Scalar.less Scalar.one settings.raise = true ∧
      Scalar.less Scalar.one settings.lower = true := by
  unfold validate at h
  split at h
  · cases h
  next epsilon =>
  split at h
  · cases h
  next damping =>
  split at h
  · cases h
  next factors =>
  rw [Bool.or_eq_true, not_or] at factors
  exact ⟨by simpa using epsilon, by simpa using damping, by simpa using factors.1,
    by simpa using factors.2⟩

/-- What a linearization comes to does not depend on what was in the buffer it is written to. -/
def ResidualSystem.Overwrites (system : ResidualSystem F m n) : Prop :=
  ∀ x buffer buffer', system x buffer = system x buffer'

/-- Where the plain iteration stands. -/
structure Iterate (F : Type) (n : Nat) where
  point : Vector F n
  damping : F
  iterations : Nat
  deriving DecidableEq

/-- The result of a search. -/
structure Outcome (F : Type) (n : Nat) where
  point : Vector F n
  error : F
  iterations : Nat
  damping : F
  termination : Termination
  deriving DecidableEq

/-! ### The plain iteration -/

namespace Iterate

/-- The result of a search that ends here. -/
def outcome (p : Iterate F n) (error : F) (why : Termination) : Outcome F n :=
  ⟨p.point, error, p.iterations, p.damping, why⟩

/-- What follows from a trial: `here` and `there` are the linearizations at the point and at the
    trial. -/
def judge (settings : Settings F) (p : Iterate F n) (trial : Vector F n)
    (here there : Linearization F m n) : Iterate F n ⊕ Outcome F n :=
  if Scalar.less there.error here.error then
    let next : Iterate F n := ⟨trial, p.damping / settings.lower, p.iterations + 1⟩
    if Scalar.less there.error settings.epsilon then
      .inr (next.outcome there.error .errorBelowEpsilon)
    else if there.isFlat settings.epsilon then .inr (next.outcome there.error .flatJacobian)
    else if isClose settings.epsilon here.error there.error then
      .inr (next.outcome there.error .stalled)
    else .inl next
  else
    let next : Iterate F n := ⟨p.point, p.damping * settings.raise, p.iterations + 1⟩
    if isClose settings.epsilon here.error there.error || !Scalar.isFinite next.damping then
      .inr (next.outcome here.error .stalled)
    else .inl next

/-- One step: to the next iterate, or to the result. -/
def step (settings : Settings F) (system : ResidualSystem F m n) (p : Iterate F n) :
    Except (SolveError F) (Iterate F n ⊕ Outcome F n) := do
  let here ← system.linearizeAt p.point .blank
  if settings.maxSteps.any (· ≤ p.iterations) then return .inr (p.outcome here.error .maxSteps)
  else
    let delta := (NormalEquations.ofLinearization here).solve p.damping
    if Scalar.allFinite delta.toList then
      let trial := Vector.zipWith (· - ·) p.point delta
      let there ← system.linearizeAt trial .blank
      return p.judge settings trial here there
    else throw (.diverged (p.iterations + 1) .stepNotFinite)

/-- A step from a point where the system has a linearization. -/
theorem step_eq {settings : Settings F} {system : ResidualSystem F m n} {x : Vector F n}
    {here : Linearization F m n} (h : system.linearizeAt x .blank = .ok here) (damping : F)
    (k : Nat) :
    step settings system ⟨x, damping, k⟩ =
      if settings.maxSteps.any (· ≤ k) then .ok (.inr ⟨x, here.error, k, damping, .maxSteps⟩)
      else
        let delta := (NormalEquations.ofLinearization here).solve damping
        let trial := Vector.zipWith (· - ·) x delta
        if Scalar.allFinite delta.toList then
          (system.linearizeAt trial .blank).map (judge settings ⟨x, damping, k⟩ trial here)
        else .error (.diverged (k + 1) .stepNotFinite) := by
  unfold step
  rw [h]
  by_cases hmax : settings.maxSteps.any (· ≤ k) = true
  · rw [if_pos hmax]
    exact if_pos hmax
  · rw [if_neg hmax]
    refine (if_neg hmax).trans ?_
    dsimp only
    split
    · cases system.linearizeAt _ Linearization.blank <;> rfl
    · rfl

/-- Steps until the search ends, if `fuel` of them are enough. -/
def run (settings : Settings F) (system : ResidualSystem F m n) :
    (fuel : Nat) → Iterate F n → Option (Except (SolveError F) (Outcome F n))
  | 0, _ => none
  | fuel + 1, p =>
    match p.step settings system with
    | .error e => some (.error e)
    | .ok (.inr o) => some (.ok o)
    | .ok (.inl p) => run settings system fuel p

end Iterate

/-- The plain search near `guess`, in at most `fuel` steps. -/
def searchWithin (fuel : Nat) (settings : Settings F) (system : ResidualSystem F m n)
    (guess : List F) : Option (Except (SolveError F) (Outcome F n)) :=
  match settings.validate with
  | .error fault => some (.error (.settings fault))
  | .ok () =>
    match ofListExact? n guess with
    | none => some (.error (.formula (.evaluating (.argumentCount n guess.length))))
    | some x =>
      match system.linearizeAt x .blank with
      | .error e => some (.error e)
      | .ok start =>
        if Scalar.isFinite start.error then
          Iterate.run settings system fuel ⟨x, settings.initialDamping, 0⟩
        else some (.error (.diverged 0 .startNotFinite))

/-! ### Forgetting the buffers -/

/-- The result of a search that ended, without its buffers. -/
def Descent.outcome (d : Descent F m n) (why : Termination) : Outcome F n :=
  ⟨d.point, d.error, d.iterations, d.damping, why⟩

/-- Where a search stands, without its buffers. -/
def Descent.iterate (d : Descent F m n) : Iterate F n := ⟨d.point, d.damping, d.iterations⟩

/-- What a step leads to, without the buffers. -/
def Progress.forget : Progress F m n → Iterate F n ⊕ Outcome F n
  | .goesOn d => .inl d.iterate
  | .ended d why => .inr (d.outcome why)

namespace Descent

variable {settings : Settings F} {system : ResidualSystem F m n} {d d' : Descent F m n}
  {x : Vector F n} {l : Linearization F m n} {e : F}

/-- The buffers hold what they are taken for: the linearization at the point, its error, and its
    normal equations unless these are marked as stale. -/
structure Faithful (system : ResidualSystem F m n) (d : Descent F m n) : Prop where
  current : system.linearizeAt d.point .blank = .ok d.current
  error : d.error = d.current.error
  normal : d.stale = false → d.normal = .ofLinearization d.current

/-- Before a step the normal equations are worked out, or they are still those of the point. -/
theorem normal_refresh (h : d.stale = false → d.normal = .ofLinearization d.current) :
    d.refresh.normal = .ofLinearization d.current := by
  unfold refresh
  split
  · rfl
  · next fresh => exact h (Bool.eq_false_iff.mpr fresh)

theorem Faithful.normal_refresh (h : d.Faithful system) :
    d.refresh.normal = .ofLinearization d.current :=
  Descent.normal_refresh h.normal

@[simp] theorem point_refresh (d : Descent F m n) : d.refresh.point = d.point := by
  unfold refresh
  split <;> rfl

@[simp] theorem error_refresh (d : Descent F m n) : d.refresh.error = d.error := by
  unfold refresh
  split <;> rfl

@[simp] theorem damping_refresh (d : Descent F m n) : d.refresh.damping = d.damping := by
  unfold refresh
  split <;> rfl

@[simp] theorem current_refresh (d : Descent F m n) : d.refresh.current = d.current := by
  unfold refresh
  split <;> rfl

@[simp] theorem spare_refresh (d : Descent F m n) : d.refresh.spare = d.spare := by
  unfold refresh
  split <;> rfl

/-- After a refresh the normal equations are those of the current linearization. -/
theorem faithful_refresh (h : d.Faithful system) (k : Nat) :
    ({ d.refresh with iterations := k } : Descent F m n).Faithful system where
  current := by simpa using h.current
  error := by simpa using h.error
  normal := fun _ => by simpa using h.normal_refresh

/-- If the search goes on after a trial, it goes on from the trial with less damping, or from where
    it was with more. -/
theorem of_judge_eq_goesOn (h : d.judge settings x l = .goesOn d') :
    (Scalar.less l.error d.error = true ∧
      d' = { d with
        point := x, error := l.error, damping := d.damping / settings.lower, current := l,
        spare := d.current, stale := true }) ∨
    (Scalar.isFinite (d.damping * settings.raise) = true ∧
      d' = { d with damping := d.damping * settings.raise, spare := l }) := by
  unfold judge at h
  dsimp only at h
  split at h
  · next better =>
    -- the trial is better, and none of the reasons to end applies
    unfold accept at h
    dsimp only at h
    split at h
    · cases h
    split at h
    · cases h
    split at h
    · cases h
    cases h
    exact .inl ⟨better, rfl⟩
  · -- the trial is not better, and the damping can still be raised
    unfold reject at h
    dsimp only at h
    split at h
    · cases h
    next goes_on =>
    cases h
    rw [Bool.or_eq_true, not_or] at goes_on
    exact .inr ⟨by simpa using goes_on.2, rfl⟩

/-- A trial leaves the buffers faithful, however it is judged. -/
theorem faithful_of_judge (hd : d.Faithful system) (hl : system.linearizeAt x .blank = .ok l)
    (h : d.judge settings x l = .goesOn d') : d'.Faithful system := by
  rcases of_judge_eq_goesOn h with ⟨-, rfl⟩ | ⟨-, rfl⟩
  · exact ⟨hl, rfl, nofun⟩
  · exact ⟨hd.current, hd.error, hd.normal⟩

/-- A trial is judged by the errors at its two ends. -/
theorem forget_judge {here : Linearization F m n} {p : Iterate F n}
    (herror : d.error = here.error) (hpoint : d.point = p.point)
    (hdamping : d.damping = p.damping) (hiterations : d.iterations = p.iterations + 1) :
    (d.judge settings x l).forget = p.judge settings x here l := by
  unfold judge Iterate.judge
  rw [herror]
  dsimp only
  split
  · unfold accept
    rw [herror, hdamping, hiterations]
    split
    · rfl
    split
    · rfl
    split <;> rfl
  · unfold reject
    rw [herror, hdamping, hiterations, hpoint]
    dsimp only
    split <;> rfl

/-- A step that is tried, with the linearization at the point and the normal equations there. -/
theorem attempt_eq (hsystem : system.Overwrites) (hd : d.Faithful system) :
    d.attempt settings system =
      let delta := (NormalEquations.ofLinearization d.current).solve d.damping
      let trial := Vector.zipWith (· - ·) d.point delta
      if Scalar.allFinite delta.toList then
        (system.linearizeAt trial .blank).map
          (Descent.judge settings { d.refresh with iterations := d.iterations + 1 } trial)
      else .error (.diverged (d.iterations + 1) .stepNotFinite) := by
  have overwritten : ∀ x, system.linearizeAt x d.spare = system.linearizeAt x .blank := by
    intro x
    rw [ResidualSystem.linearizeAt, hsystem x d.spare .blank]
    rfl
  unfold attempt
  simp only [hd.normal_refresh, point_refresh, damping_refresh, spare_refresh, overwritten]
  split
  · cases system.linearizeAt _ Linearization.blank <;> rfl
  · rfl

/-- **One step.**  If linearizations overwrite the buffers, a step of the search is a plain step. -/
theorem forget_step (hsystem : system.Overwrites) (hd : d.Faithful system) :
    (d.step settings system).map Progress.forget = d.iterate.step settings system := by
  rw [iterate, Iterate.step_eq hd.current]
  unfold step
  split
  · rw [← hd.error]
    rfl
  · rw [attempt_eq hsystem hd]
    dsimp only
    split
    · cases system.linearizeAt _ Linearization.blank with
      | error e => rfl
      | ok l =>
        refine congrArg Except.ok ?_
        exact forget_judge ((error_refresh d).trans hd.error) (point_refresh d)
          (damping_refresh d) rfl
    · rfl

/-- A search stays faithful. -/
theorem faithful_of_step (hsystem : system.Overwrites) (hd : d.Faithful system)
    (h : d.step settings system = .ok (.goesOn d')) : d'.Faithful system := by
  unfold step at h
  split at h
  · cases h
  rw [attempt_eq hsystem hd] at h
  dsimp only at h
  split at h
  · obtain ⟨l, hl, hjudge⟩ := map_eq_ok.mp h
    exact faithful_of_judge (faithful_refresh hd (d.iterations + 1)) hl hjudge
  · cases h

/-- A whole search is a plain one. -/
theorem forget_run (hsystem : system.Overwrites) (hd : d.Faithful system) (fuel : Nat) :
    (d.run settings system fuel).map (Except.map fun r => r.1.outcome r.2) =
      d.iterate.run settings system fuel := by
  induction fuel generalizing d with
  | zero => rfl
  | succ fuel ih =>
    rw [run, Iterate.run, ← forget_step hsystem hd]
    cases hresult : d.step settings system with
    | error e => rfl
    | ok p =>
      cases p with
      | ended d' why => rfl
      | goesOn d' => exact ih (faithful_of_step hsystem hd hresult)

/-- The search before its first step. -/
theorem start_eq (hl : system.linearizeAt x .blank = .ok l) :
    start settings system x =
      if Scalar.isFinite l.error then
        .ok ⟨x, l.error, settings.initialDamping, 0, l, .blank, .blank, true⟩
      else .error (.diverged 0 .startNotFinite) := by
  unfold start
  rw [hl]
  rfl

/-- The buffers are faithful at first. -/
theorem faithful_start (hl : system.linearizeAt x .blank = .ok l) :
    Faithful system ⟨x, l.error, settings.initialDamping, 0, l, .blank, .blank, true⟩ :=
  ⟨hl, rfl, fun fresh => by cases fresh⟩

/-- What a search starts with. -/
theorem of_start_eq_ok (h : start settings system x = .ok d) :
    d.Faithful system ∧ d.iterate = ⟨x, settings.initialDamping, 0⟩ := by
  obtain ⟨l, hl, h⟩ := bind_eq_ok.mp h
  dsimp only at h
  split at h
  · cases h
    exact ⟨faithful_start hl, rfl⟩
  · cases h

end Descent

/-- **The buffers do not matter.**  Searches come to the results of plain searches, failures
    included, and use as many steps. -/
theorem minimizeWithin_eq_searchWithin {system : ResidualSystem F m n} (h : system.Overwrites)
    (settings : Settings F) (guess : List F) (fuel : Nat) :
    (minimizeWithin fuel settings system guess).map (Except.map fun r => r.1.outcome r.2) =
      searchWithin fuel settings system guess := by
  unfold minimizeWithin searchWithin
  cases settings.validate with
  | error fault => rfl
  | ok _ =>
    cases ofListExact? n guess with
    | none => rfl
    | some x =>
      dsimp only
      cases hl : system.linearizeAt x .blank with
      | error e => simp [Descent.start, hl, bind, Except.bind, Except.map]
      | ok l =>
        rw [Descent.start_eq hl]
        dsimp only
        by_cases hfinite : Scalar.isFinite l.error = true
        · rw [if_pos hfinite, if_pos hfinite]
          exact Descent.forget_run h (Descent.faithful_start hl) fuel
        · rw [if_neg hfinite, if_neg hfinite]
          rfl

end Drafting
