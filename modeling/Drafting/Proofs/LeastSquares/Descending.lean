import Drafting.Proofs.LeastSquares.Normal
import Drafting.Proofs.LeastSquares.Termination

namespace Drafting

/-!
# Damped steps descend

In exact arithmetic a damped step exists wherever it is asked for, and the linear model of the
residuals says that it lowers the total error, unless it is zero.  Where the residuals are affine
the model is right.  So a search for the best point of affine residuals takes every step that leads
anywhere, and it does not break off.

* `ResidualSystem.Affine` — systems of affine residuals;
* `Descent.attempt_affine` — what a step tries;
* `Descent.step_descends` — one step;
* `Descent.run_ne_error` — all steps;
* `damped_steps_descend` — the step, its linear model, and whole searches.
-/

open Matrix Relation

variable {K : Type} [ExactScalar K] {m n : Nat}

/-! ### Affine residuals -/

/-- The residuals at `x` are `J x - b`, so that the Jacobian is `J` everywhere. -/
def ResidualSystem.Affine (system : ResidualSystem K m n) (J : Matrix (Fin m) (Fin n) K)
    (b : Fin m → K) : Prop :=
  ∀ x buffer, ∃ l, system x buffer = .ok l ∧ l.matrix = J ∧ l.residuals.get = J *ᵥ x.get - b

omit [ExactScalar K] in
/-- A linearization is its Jacobian and its residuals. -/
theorem Linearization.ext_matrix {l l' : Linearization K m n} (hmatrix : l.matrix = l'.matrix)
    (hresiduals : l.residuals.get = l'.residuals.get) : l = l' := by
  obtain ⟨residuals, jacobian⟩ := l
  obtain ⟨residuals', jacobian'⟩ := l'
  obtain rfl : residuals = residuals' := ext_get (congrFun hresiduals)
  obtain rfl : jacobian = jacobian' := Mat.ext_entry fun i j => congrFun (congrFun hmatrix i) j
  rfl

namespace ResidualSystem.Affine

variable {system : ResidualSystem K m n} {J : Matrix (Fin m) (Fin n) K} {b : Fin m → K}

/-- An affine system can be evaluated into any buffer. -/
theorem overwrites (h : system.Affine J b) : system.Overwrites := by
  intro x buffer buffer'
  obtain ⟨l, hl, hmatrix, hresiduals⟩ := h x buffer
  obtain ⟨l', hl', hmatrix', hresiduals'⟩ := h x buffer'
  rw [hl, hl', Linearization.ext_matrix (hmatrix.trans hmatrix'.symm)
    (hresiduals.trans hresiduals'.symm)]

/-- There is a linearization at every point. -/
theorem exists_ok (h : system.Affine J b) (x : Vector K n) (buffer : Linearization K m n) :
    ∃ l, system x buffer = .ok l :=
  (h x buffer).imp fun _ hl => hl.1

theorem exists_linearizeAt (h : system.Affine J b) (x : Vector K n) (buffer : Linearization K m n) :
    ∃ l, system.linearizeAt x buffer = .ok l ∧ l.matrix = J ∧ l.residuals.get = J *ᵥ x.get - b := by
  obtain ⟨l, hl, hl'⟩ := h x buffer
  exact ⟨l, ResidualSystem.linearizeAt_eq_ok.mpr hl, hl'⟩

/-- Where it has been evaluated, matrix and residuals are those of the system. -/
theorem of_linearizeAt (h : system.Affine J b) {x : Vector K n} {buffer l : Linearization K m n}
    (hl : system.linearizeAt x buffer = .ok l) :
    l.matrix = J ∧ l.residuals.get = J *ᵥ x.get - b := by
  obtain ⟨l', hl', hsame⟩ := h.exists_linearizeAt x buffer
  obtain rfl := Except.ok.inj (hl.symm.trans hl')
  exact hsame

end ResidualSystem.Affine

/-! ### Steps -/

/-- The state that a step leads to, whether the search goes on from there or ends. -/
def Progress.state {F : Type} : Progress F m n → Descent F m n
  | .goesOn d => d
  | .ended d _ => d

/-- What is taken over from a trial that is accepted, whether or not the search ends with it. -/
theorem Descent.state_accept {F : Type} [Scalar F] (settings : Settings F) (d : Descent F m n)
    (x : Vector F n) (l : Linearization F m n) (e : F) :
    (d.accept settings x l e).state =
      { d with
        point := x, error := e, damping := d.damping / settings.lower, current := l,
        spare := d.current, stale := true } := by
  unfold accept
  dsimp only
  split
  · rfl
  split
  · rfl
  split <;> rfl

/-- A trial with a smaller error is accepted. -/
theorem Descent.judge_of_less {F : Type} [Scalar F] {settings : Settings F} {d : Descent F m n}
    {x : Vector F n} {l : Linearization F m n} (h : Scalar.less l.error d.error = true) :
    d.judge settings x l = d.accept settings x l l.error := by
  unfold judge
  dsimp only
  rw [if_pos h]

namespace Descent

variable {settings : Settings K} {system : ResidualSystem K m n} {d d' : Descent K m n}
  {J : Matrix (Fin m) (Fin n) K} {b : Fin m → K} {guess : List K}

variable (settings) in
/-- **What a step tries.**  With affine residuals there is always a trial, and its residuals are
    what the linear model says. -/
theorem attempt_affine [ExactFinite K] (hsystem : system.Affine J b) (hd : d.Faithful system) :
    ∃ tried trial there, d.attempt settings system = .ok (judge settings tried trial there) ∧
      tried.error = d.error ∧ tried.damping = d.damping ∧
      trial.get = d.point.get - ((NormalEquations.ofLinearization d.current).solve d.damping).get ∧
      there.residuals.get = d.current.residuals.get -
        J *ᵥ ((NormalEquations.ofLinearization d.current).solve d.damping).get := by
  rw [attempt_eq hsystem.overwrites hd]
  dsimp only
  rw [if_pos (ExactFinite.allFinite _)]
  generalize (NormalEquations.ofLinearization d.current).solve d.damping = delta
  obtain ⟨there, hthere, -, hresiduals⟩ :=
    hsystem.exists_linearizeAt (Vector.zipWith (· - ·) d.point delta) .blank
  have moved : (Vector.zipWith (· - ·) d.point delta).get = d.point.get - delta.get :=
    funext fun i => get_zipWith _ _ _ i
  refine ⟨{ d.refresh with iterations := d.iterations + 1 }, _, there, by rw [hthere]; rfl,
    error_refresh d, damping_refresh d, moved, ?_⟩
  rw [hresiduals, moved, (hsystem.of_linearizeAt hd.current).2, Matrix.mulVec_sub]
  exact sub_right_comm _ _ _

variable (settings d) in
/-- Where the system has a linearization at every point, no step fails. -/
theorem exists_step [ExactFinite K] (hsystem : ∀ x b, ∃ l, system x b = .ok l) :
    ∃ p, d.step settings system = .ok p := by
  unfold step
  split
  · exact ⟨_, rfl⟩
  · unfold attempt
    dsimp only
    rw [if_pos (ExactFinite.allFinite _)]
    obtain ⟨l, hl⟩ := hsystem
      (Vector.zipWith (· - ·) d.refresh.point (d.refresh.normal.solve d.refresh.damping))
      d.refresh.spare
    rw [ResidualSystem.linearizeAt_eq_ok.mpr hl]
    exact ⟨_, rfl⟩

/-- Nor does a search break off. -/
theorem run_ne_error [ExactFinite K] (hsystem : ∀ x b, ∃ l, system x b = .ok l) (fuel : Nat)
    (e : SolveError K) : d.run settings system fuel ≠ some (.error e) := by
  induction fuel generalizing d with
  | zero => exact (Option.some_ne_none _).symm
  | succ fuel ih =>
    obtain ⟨p, hp⟩ := exists_step settings d hsystem
    rw [run, hp]
    cases p with
    | ended d' why => simp
    | goesOn d' => exact ih

variable [LinearOrder K]

/-- The buffers hold what they are taken for, and the damping is positive. -/
structure Underway (system : ResidualSystem K m n) (d : Descent K m n) : Prop where
  faithful : d.Faithful system
  damping : 0 < d.damping

/-- The error of a state is half the squared length of its residuals. -/
theorem Underway.error_eq [IsStrictOrderedRing K] (hd : d.Underway system) :
    d.error = d.current.residuals.get ⬝ᵥ d.current.residuals.get / 2 := by
  rw [hd.faithful.error, Linearization.error_eq, ExactScalar.half_eq]
  ring

variable [IsStrictOrderedRing K] [ExactOrder K]

/-- A search that starts is under way. -/
theorem Underway.start {x : Vector K n} (hvalid : settings.validate = .ok ())
    (h : start settings system x = .ok d) : d.Underway system := by
  obtain ⟨faithful, hiterate⟩ := of_start_eq_ok h
  have hdamping : d.damping = settings.initialDamping := congrArg Iterate.damping hiterate
  exact ⟨faithful, hdamping ▸ (Settings.positive_of_validate hvalid).1⟩

/-- The damping stays positive. -/
theorem StepsTo.damping_pos (h : StepsTo settings system d d')
    (hvalid : settings.validate = .ok ()) (hd : 0 < d.damping) : 0 < d'.damping := by
  obtain ⟨-, raise, lower⟩ := Settings.positive_of_validate hvalid
  rcases h.cases with ⟨-, hdamping⟩ | ⟨-, -, hdamping, -⟩ <;> rw [hdamping]
  · exact div_pos hd lower
  · exact mul_pos hd raise

theorem Underway.step (hd : d.Underway system) (hsystem : system.Overwrites)
    (hvalid : settings.validate = .ok ()) (h : StepsTo settings system d d') :
    d'.Underway system :=
  ⟨faithful_of_step hsystem hd.faithful h, h.damping_pos hvalid hd.damping⟩

/-- All that a search reaches is under way. -/
theorem Underway.of_reachable (hsystem : system.Overwrites) (hvalid : settings.validate = .ok ())
    (h : Reachable settings system guess d) : d.Underway system := by
  obtain ⟨x, d₀, -, hstart, hsteps⟩ := h
  induction hsteps with
  | refl => exact .start hvalid hstart
  | tail _ hstep ih => exact ih.step hsystem hvalid hstep

variable [ExactFinite K]

/-- **One step.**  Where the gradient is not zero, the step is taken: it leads to a smaller error,
    and the damping is lowered. -/
theorem step_descends (hsystem : system.Affine J b) (hd : d.Underway system)
    (slope : Jᵀ *ᵥ (J *ᵥ d.point.get - b) ≠ 0)
    (room : ∀ limit, settings.maxSteps = some limit → d.iterations < limit) :
    ∃ p delta, d.step settings system = .ok p ∧
      (Jᵀ * J + d.damping • 1) *ᵥ delta = Jᵀ *ᵥ (J *ᵥ d.point.get - b) ∧
      p.state.point.get = d.point.get - delta ∧
      p.state.error < d.error ∧ p.state.damping = d.damping / settings.lower := by
  obtain ⟨hmatrix, hresiduals⟩ := hsystem.of_linearizeAt hd.faithful.current
  obtain ⟨tried, trial, there, hattempt, herror, hdamping, htrial, hthere⟩ :=
    attempt_affine settings hsystem hd.faithful
  have solves := NormalEquations.mulVec_solve d.current hd.damping
  have decrease := NormalEquations.decrease_eq d.current hd.damping
  have positive := NormalEquations.decrease_pos d.current hd.damping
  rw [hmatrix, hresiduals] at solves positive
  dsimp only at decrease positive
  rw [hmatrix, ← hthere, ← hd.error_eq] at decrease
  have better : there.error < d.error := by
    rw [Linearization.error_eq, ExactScalar.half_eq]
    have := positive slope
    linarith
  -- so the step is tried, and what it leads to is accepted
  have left : ¬ (settings.maxSteps.any (· ≤ d.iterations) = true) := by
    cases hlimit : settings.maxSteps with
    | none => simp
    | some limit => simpa using room limit hlimit
  have taken : d.step settings system = .ok (accept settings tried trial there there.error) := by
    rw [step, if_neg left, hattempt, judge_of_less]
    rwa [herror, ExactOrder.less_iff]
  refine ⟨_, _, taken, solves, ?_⟩
  rw [state_accept]
  exact ⟨htrial, better, congrArg (· / settings.lower) hdamping⟩

end Descent

/-- **Whole searches** do not break off where the system has a linearization at every point. -/
theorem minimizeWithin_ne_error [ExactFinite K] {settings : Settings K}
    {system : ResidualSystem K m n} {guess : List K} (hsystem : ∀ x b, ∃ l, system x b = .ok l)
    (hvalid : settings.validate = .ok ()) (hguess : guess.length = n) (fuel : Nat)
    (e : SolveError K) : minimizeWithin fuel settings system guess ≠ some (.error e) := by
  obtain ⟨x, hx⟩ : ∃ x, ofListExact? n guess = some x := by
    rw [← Option.isSome_iff_exists, Option.isSome_iff_ne_none, Ne, ofListExact?_eq_none]
    exact not_not.mpr hguess
  obtain ⟨l, hl⟩ := hsystem x .blank
  have start : Descent.start settings system x = _ :=
    Descent.start_eq (ResidualSystem.linearizeAt_eq_ok.mpr hl)
  rw [if_pos (ExactFinite.isFinite l.error)] at start
  unfold minimizeWithin
  rw [hvalid, hx]
  dsimp only
  rw [start]
  exact Descent.run_ne_error hsystem fuel e

/-- **Damped steps descend.**  With positive damping, elimination meets no zero pivot in the damped
    normal equations, and comes to their one solution.  In the linear model it takes off the total
    error half the squared length of what it takes off the residuals, and a multiple of its own
    squared length; that is more than nothing, unless the gradient is zero and the step with it.  So
    a search for the best point of affine residuals takes every step from a state with a gradient,
    and does not break off. -/
theorem damped_steps_descend (K : Type) [ExactScalar K] [LinearOrder K] [IsStrictOrderedRing K]
    [ExactOrder K] [ExactFinite K] (m n : Nat) :
    (∀ (l : Linearization K m n) (damping : K), 0 < damping →
      let e := NormalEquations.ofLinearization l
      let J := l.matrix
      let r := l.residuals.get
      ∃ f delta, Factors.ofMat (e.matrix.addDiagonal damping) = .ok f ∧
        f.solveList e.gradient.toList = .ok delta ∧
        (∀ k, Factors.pivot (e.matrix.addDiagonal damping) k ≠ 0) ∧
        (∀ x, (Jᵀ * J + damping • 1) *ᵥ x = Jᵀ *ᵥ r ↔ x = delta.get) ∧
        (r ⬝ᵥ r) / 2 - ((r - J *ᵥ delta.get) ⬝ᵥ (r - J *ᵥ delta.get)) / 2 =
          ((J *ᵥ delta.get) ⬝ᵥ (J *ᵥ delta.get)) / 2 + damping * (delta.get ⬝ᵥ delta.get) ∧
        (Jᵀ *ᵥ r ≠ 0 →
          0 < ((J *ᵥ delta.get) ⬝ᵥ (J *ᵥ delta.get)) / 2 + damping * (delta.get ⬝ᵥ delta.get)) ∧
        (Jᵀ *ᵥ r = 0 → delta.get = 0)) ∧
    ∀ (settings : Settings K) (system : ResidualSystem K m n) (J : Matrix (Fin m) (Fin n) K)
      (b : Fin m → K) (guess : List K), system.Affine J b → settings.validate = .ok () →
      guess.length = n →
      (∀ d, Descent.Reachable settings system guess d → Jᵀ *ᵥ (J *ᵥ d.point.get - b) ≠ 0 →
        (∀ limit, settings.maxSteps = some limit → d.iterations < limit) →
        ∃ p delta, d.step settings system = .ok p ∧
          (Jᵀ * J + d.damping • 1) *ᵥ delta = Jᵀ *ᵥ (J *ᵥ d.point.get - b) ∧
          p.state.point.get = d.point.get - delta ∧
          p.state.error < d.error ∧ p.state.damping = d.damping / settings.lower) ∧
      ∀ fuel e, minimizeWithin fuel settings system guess ≠ some (.error e) := by
  refine ⟨fun l damping h => ?_, fun settings system J b guess hsystem hvalid hguess => ?_⟩
  · intro e J r
    have nonsingular := NormalEquations.det_damped_ne_zero l.matrix h
    rw [← NormalEquations.toMatrix_damped, Factors.det_ne_zero_iff] at nonsingular
    exact ⟨Factors.ofSquare _, e.solve damping, dif_pos rfl,
      by rw [Factors.solveList, ofListExact?_eq_some.mpr rfl]; rfl, nonsingular,
      fun x => NormalEquations.mulVec_eq_iff l h, NormalEquations.decrease_eq l h,
      NormalEquations.decrease_pos l h, (NormalEquations.get_solve_eq_zero_iff l h).mpr⟩
  · exact ⟨fun d hd slope room => Descent.step_descends hsystem
      (.of_reachable hsystem.overwrites hvalid hd) slope room,
      minimizeWithin_ne_error hsystem.exists_ok hvalid hguess⟩

/-- One equation for two variables, `x + y = 1`. -/
def sumIsOne : ResidualSystem ℝ 1 2 := fun x _ =>
  .ok ⟨#v[x.get 0 + x.get 1 - 1], #v[#v[1, 1]]⟩

/-- The residual is `x + y - 1`, with its matrix and its right-hand side. -/
theorem affine_sumIsOne : sumIsOne.Affine !![1, 1] ![1] := by
  intro x buffer
  refine ⟨_, rfl, ?_, ?_⟩
  · ext i j
    fin_cases i; fin_cases j <;> rfl
  · funext i
    fin_cases i
    simp [dotProduct, Fin.sum_univ_two]

/-- The Jacobian of one equation for two variables has no inverse, and still there is a step. -/
theorem damped_steps_descend_sumIsOne :
    sumIsOne.Affine !![1, 1] ![1] ∧ (Settings.default : Settings ℝ).validate = .ok () ∧
      (∃ d, Descent.Reachable .default sumIsOne [0, 0] d ∧
        (0 < d.damping ∧ ∃ f delta,
          Factors.ofMat ((NormalEquations.ofLinearization d.current).matrix.addDiagonal d.damping) =
              .ok f ∧
            f.solveList (NormalEquations.ofLinearization d.current).gradient.toList = .ok delta) ∧
        !![1, 1]ᵀ *ᵥ (!![1, 1] *ᵥ d.point.get - ![1]) ≠ 0 ∧
        ∃ p, d.step .default sumIsOne = .ok p ∧ p.state.error < d.error) ∧
      ∀ fuel e, minimizeWithin fuel .default sumIsOne [0, 0] ≠ some (.error e) := by
  have unlimited : (Settings.default : Settings ℝ).maxSteps = none := rfl
  have valid : (Settings.default : Settings ℝ).validate = .ok () :=
    Settings.validate_default (Option.some_ne_none 0).symm
  obtain ⟨steps, searches⟩ := damped_steps_descend ℝ 1 2
  obtain ⟨descends, unfailing⟩ :=
    searches .default sumIsOne _ _ [0, 0] affine_sumIsOne valid rfl
  obtain ⟨l, hl, -⟩ := affine_sumIsOne.exists_linearizeAt #v[0, 0] .blank
  have start : Descent.start .default sumIsOne #v[0, 0] = _ := Descent.start_eq hl
  rw [if_pos (ExactFinite.isFinite l.error)] at start
  have reachable : Descent.Reachable .default sumIsOne [0, 0] _ := ⟨#v[0, 0], _, rfl, start, .refl⟩
  -- the gradient at the start is `[-1, -1]`
  have slope : !![1, 1]ᵀ *ᵥ (!![1, 1] *ᵥ (#v[0, 0] : Vector ℝ 2).get - ![1]) ≠ 0 := by
    intro zero
    have first := congrFun zero 0
    simp [Matrix.mulVec, dotProduct, Fin.sum_univ_two, Vector.get] at first
  have positive : (0 : ℝ) < (Settings.default : Settings ℝ).initialDamping := by
    simp [Settings.default]
  obtain ⟨f, delta, hf, hdelta, -⟩ := steps l _ positive
  obtain ⟨p, -, hp, -, -, better, -⟩ := descends _ reachable slope (by simp [unlimited])
  exact ⟨affine_sumIsOne, valid,
    ⟨_, reachable, ⟨positive, f, delta, hf, hdelta⟩, slope, p, hp, better⟩, unfailing⟩

end Drafting
