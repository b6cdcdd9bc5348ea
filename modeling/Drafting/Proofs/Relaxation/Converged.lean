import Drafting.Proofs.Exact.Real
import Drafting.Proofs.LeastSquares.Descending
import Drafting.Proofs.Relaxation.Elimination
import Drafting.Proofs.Relaxation.Soundness

namespace Drafting

/-!
# Convergence means satisfaction

A search that ends because its error is below epsilon has half the sum of all squared residuals
below epsilon.  An equation is met where its own squared residual is below the square root of
epsilon.  As long as epsilon is at most a quarter, the first implies the second, so that relaxation
ends with the run that converges.

* `exists_of_errorBelowEpsilon` — what such a search shows;
* `two_mul_le_sqrt` — the two thresholds;
* `SolveOptions.isMet_of_errorBelowEpsilon` — all equations are met;
* `eliminate_of_met` — elimination ends where all is met;
* `kept_of_flags` — the conditions with a flag;
* `relax_keeps_converged` — relaxation.
-/

variable {K : Type} [ExactScalar K] [LinearOrder K] {m n : Nat}

/-! ### Searches -/

/-- A search that ends because of its error ends where the error is small. -/
theorem exists_of_errorBelowEpsilon [ExactOrder K] {settings : Settings K}
    {system : ResidualSystem K m n} {guess : List K} {fuel : Nat} {d : Descent K m n}
    (hsystem : system.Overwrites)
    (h : minimizeWithin fuel settings system guess = some (.ok (d, .errorBelowEpsilon))) :
    ∃ l, system d.point .blank = .ok l ∧ l.error < settings.epsilon := by
  have htrans : ∀ x y z : K, Scalar.less x y = true → Scalar.less y z = true →
      Scalar.less x z = true := by
    intro x y z
    simp only [ExactOrder.less_iff]
    exact lt_trans
  have plain := minimizeWithin_eq_searchWithin hsystem settings guess fuel
  rw [h] at plain
  obtain ⟨x, first, -, hfirst, hrun⟩ := searchWithin_eq_ok plain.symm
  have sound : Iterate.Sound settings first first ⟨x, settings.initialDamping, 0⟩ :=
    ⟨.inl rfl, fun limit _ => Nat.zero_le limit⟩
  obtain ⟨l, hl, truthful⟩ := Iterate.truthful_of_run htrans hfirst sound hrun
  have small := (ExactOrder.less_iff _ _).mp (truthful.small rfl)
  rw [truthful.error] at small
  exact ⟨l, ResidualSystem.linearizeAt_eq_ok.mp hl, small⟩

/-! ### The two thresholds -/

/-- Twice a number is at most its square root, if the number is at most a quarter. -/
theorem two_mul_le_sqrt [IsStrictOrderedRing K] [ExactRoots K] {x : K} (h : 0 ≤ x)
    (hx : 4 * x ≤ 1) : 2 * x ≤ Scalar.sqrt x := by
  have root := ExactRoots.sq_sqrt x h
  have squares : (2 * x) ^ 2 ≤ Scalar.sqrt x ^ 2 := by
    calc (2 * x) ^ 2 = 4 * x * x := by ring
      _ ≤ 1 * x := mul_le_mul_of_nonneg_right hx h
      _ = Scalar.sqrt x ^ 2 := by rw [one_mul, root]
  exact (pow_le_pow_iff_left₀ (by positivity) (ExactRoots.sqrt_nonneg x h) two_ne_zero).mp squares

/-- Each squared residual is at most twice the total error. -/
theorem Linearization.sq_residual_le [IsStrictOrderedRing K] (l : Linearization K m n) (i : Fin m) :
    l.residuals.get i * l.residuals.get i ≤ 2 * l.error := by
  have half : 2 * (Scalar.half : K) = 1 := by
    rw [ExactScalar.half_eq]
    norm_num
  rw [error_eq, ← mul_assoc, half, one_mul]
  exact Finset.single_le_sum (f := fun j => l.residuals.get j * l.residuals.get j)
    (fun j _ => mul_self_nonneg _) (Finset.mem_univ i)

/-- What the solver finds is where relaxation goes on. -/
theorem SolveOptions.minimizer_eq {F : Type} [Scalar F] {o : SolveOptions F} {names : List String}
    {programs : List (Program F)} {y : List F} :
    o.minimizer names programs y =
      ((minimize o.settings ((Equations.mk names programs).residualSystem names.length) y).bind
        Except.toOption).map fun r => r.1.point.toList := by
  unfold minimizer
  dsimp only
  rcases minimize o.settings ((Equations.mk names programs).residualSystem names.length) y with
    _ | _ | ⟨d, why⟩ <;> rfl

/-- **Convergence means satisfaction.** -/
theorem SolveOptions.isMet_of_errorBelowEpsilon [IsStrictOrderedRing K] [ExactOrder K]
    [ExactRoots K] {o : SolveOptions K} (hpos : 0 < o.epsilon) (hquarter : 4 * o.epsilon ≤ 1)
    {s : Equations K} {y : List K} {d : Descent K s.programs.length n}
    (h : minimize o.settings (s.residualSystem n) y = some (.ok (d, .errorBelowEpsilon))) :
    ∀ p ∈ s.programs, o.isMet d.point.toList p = true := by
  intro p hp
  obtain ⟨l, hl, small⟩ := exists_of_errorBelowEpsilon (s.residualSystem_overwrites n) h
  obtain ⟨i, rfl⟩ := List.get_of_mem hp
  obtain ⟨v, hv, hrow⟩ := s.residualSystem_eq_ok.mp hl i
  refine isMet_iff.mpr ⟨v, hv, (ExactOrder.less_iff _ _).mpr ?_⟩
  rw [← hrow.1]
  calc l.residuals.get i * l.residuals.get i ≤ 2 * l.error := l.sq_residual_le i
    _ < 2 * o.epsilon := mul_lt_mul_of_pos_left small two_pos
    _ ≤ Scalar.sqrt o.epsilon := two_mul_le_sqrt hpos.le hquarter

/-! ### The last run -/

section LastRun

variable {α β : Type} {minimizer : List α → β → Option β} {isMet : β → α → Bool}

/-- **The last run.**  A run that ends where all it was run on is met is the last one; elimination
    ends at its point and takes none of it away. -/
theorem eliminate_of_met {conditions : List α} {places : Finset (Fin conditions.length)} {x : β}
    {tried : List α} {y : β} (k : Nat)
    (hrun : (eliminate minimizer isMet conditions places x).runs[k]? = some (tried, y))
    (hmet : ∀ c ∈ tried, isMet ((minimizer tried y).getD y) c = true) :
    let e := eliminate minimizer isMet conditions places x
    k + 1 = e.runs.length ∧ e.point = (minimizer tried y).getD y ∧
      e.kept.sort.map conditions.get = tried := by
  fun_induction eliminate minimizer isMet conditions places x generalizing k with
  | case1 => cases hrun
  | case2 places x _ here point unmet hunmet rest ih =>
    cases k with
    | zero =>
      -- something that this run was on is not met
      obtain ⟨rfl, rfl⟩ := Prod.mk.inj (Option.some.inj hrun)
      obtain ⟨i, hi⟩ := hunmet
      obtain ⟨hmem, hi⟩ := Finset.mem_filter.mp hi
      have tried : conditions.get i ∈ here := List.mem_map_of_mem ((Finset.mem_sort _).mpr hmem)
      rw [hmet _ tried] at hi
      cases hi
    | succ k =>
      obtain ⟨last, ends⟩ := ih k hrun
      exact ⟨congrArg (· + 1) last, ends⟩
  | case3 places x _ here point unmet hnone =>
    cases k with
    | zero =>
      obtain ⟨rfl, rfl⟩ := Prod.mk.inj (Option.some.inj hrun)
      exact ⟨rfl, rfl, rfl⟩
    | succ k => cases hrun

/-- The conditions with a flag are those at the places that are kept. -/
theorem kept_of_flags (conditions : List α) (kept : Finset (Fin conditions.length)) :
    ((conditions.zip ((List.finRange conditions.length).map (decide <| · ∈ kept))).filter
      (·.2)).map Prod.fst = kept.sort.map conditions.get := by
  have listed : kept.sort = (List.finRange conditions.length).filter (decide <| · ∈ kept) := by
    have nodup := (List.nodup_finRange conditions.length).filter (decide <| · ∈ kept)
    have set : kept =
        ((List.finRange conditions.length).filter (decide <| · ∈ kept)).toFinset := by
      ext i
      simp
    conv_lhs => rw [set]
    rw [List.toFinset_sort _ nodup, ← Fin.sort_univ]
    exact (Finset.univ.pairwise_sort _).filter _
  have zipped : conditions.zip ((List.finRange conditions.length).map (decide <| · ∈ kept)) =
      (List.finRange conditions.length).map fun i => (conditions.get i, decide (i ∈ kept)) :=
    (congrArg (List.zip · _) (List.map_get_finRange conditions).symm).trans List.zip_map'
  rw [listed, zipped, List.filter_map, List.map_map]
  rfl

end LastRun

/-! ### Relaxation -/

/-- **Relaxation keeps what it has converged on.**  Let epsilon be at most a quarter, and look at
    what the minimizer is run on in the course of a relaxation.  If one of these runs ends because
    its error is below epsilon, then all the equations it was run on are met where it ended.  It was
    the last run, its point is that of the answer, and the equations it was run on are the ones with
    a flag. -/
theorem relax_keeps_converged [IsStrictOrderedRing K] [ExactOrder K] [ExactRoots K]
    (names : List String) (programs : List (Program K)) (start : List K) (o : SolveOptions K)
    (hpos : 0 < o.epsilon) (hquarter : o.epsilon ≤ 1 / 4) :
    ∃ flags final runs,
      (relax (logged (o.minimizer names)) (fun y => o.isMet y.1) programs (start, []) :
        Except (SolveError K) _) = .ok (flags, final, runs) ∧
      (relax (o.minimizer names) o.isMet programs start : Except (SolveError K) _) =
        .ok (flags, final) ∧
      ∀ k tried y d, runs[k]? = some (tried, y) →
        minimize o.settings ((Equations.mk names tried).residualSystem names.length) y =
          some (.ok (d, .errorBelowEpsilon)) →
        (∀ p ∈ tried, o.isMet d.point.toList p = true) ∧
        k + 1 = runs.length ∧ final = d.point.toList ∧
        ((programs.zip flags).filter (·.2)).map Prod.fst = tried := by
  refine ⟨_, _, _, relax_logged_eq_of_eliminate (o.minimizer names) o.isMet programs start,
    relax_eq_of_eliminate (o.minimizer names) o.isMet programs start, ?_⟩
  intro k tried y d hrun hminimize
  have met : ∀ p ∈ tried, o.isMet d.point.toList p = true :=
    SolveOptions.isMet_of_errorBelowEpsilon hpos (by linarith) hminimize
  have point : (o.minimizer names tried y).getD y = d.point.toList := by
    rw [SolveOptions.minimizer_eq, hminimize]
    rfl
  -- a run after which nothing is unmet is the last one
  obtain ⟨last, final, kept⟩ := eliminate_of_met k hrun (point ▸ met)
  exact ⟨met, last, final.trans point, (kept_of_flags programs _).trans kept⟩

/-! ### A run that converges after one that failed -/

/-- `x ^ x`, which has no derivative. -/
def selfPower : Program ℝ := ⟨[.load 0, .load 0, .binary .pow], 1⟩

/-- `x`. -/
def onlyX : Program ℝ := ⟨[.load 0], 1⟩

/-- Where `x` starts. -/
noncomputable def halfStart : List ℝ := [Scalar.half]

/-- Options with the largest epsilon, for a single step. -/
noncomputable def singleStep : SolveOptions ℝ :=
  { SolveOptions.default with epsilon := Scalar.ofDecimal 25 2, maxSteps := some 1 }

theorem epsilon_singleStep : singleStep.epsilon = 1 / 4 := by
  norm_num [singleStep, ExactScalar.ofDecimal_eq]

/-- The options are fine. -/
theorem validate_singleStep : singleStep.settings.validate = .ok () := by
  have factor : (1 : ℝ) < 10 := by norm_num
  have steps : singleStep.maxSteps = some 1 := rfl
  simp [Settings.validate, SolveOptions.settings, epsilon_singleStep, steps, Settings.default,
    Bool.eq_false_iff, ExactOrder.less_iff, factor]

/-- The equation `x = 0` for the solver. -/
theorem affine_onlyX :
    ((Equations.mk ["x"] [onlyX]).residualSystem 1).Affine (1 : Matrix (Fin 1) (Fin 1) ℝ) 0 := by
  intro x buffer
  obtain ⟨y, rfl⟩ : ∃ y, x = #v[y] := ⟨x.get 0, ext_get (Fin.forall_fin_one.mpr rfl)⟩
  refine ⟨⟨#v[y], #v[#v[Scalar.one]]⟩, ?_, ?_, ?_⟩
  · exact (Equations.residualSystem_eq_ok _).mpr
      (Fin.forall_fin_one.mpr ⟨Dual.seed y 0 1, rfl, rfl, Fin.forall_fin_one.mpr rfl⟩)
  · ext i j
    fin_cases i; fin_cases j
    exact ExactScalar.one_eq
  · funext i
    fin_cases i
    simp

/-- The total error of a single residual. -/
theorem Linearization.error_single {l : Linearization ℝ 1 1} {r : ℝ} (h : l.residuals.get 0 = r) :
    l.error = r * r / 2 := by
  rw [error_eq, ExactScalar.half_eq]
  simp only [dotProduct, Fin.sum_univ_one, h]
  ring

/-- From a half the solver takes one step, and the error is small. -/
theorem minimize_halfStart {system : ResidualSystem ℝ 1 1} (hsystem : system.Affine 1 0) :
    ∃ d, minimize singleStep.settings system halfStart = some (.ok (d, .errorBelowEpsilon)) := by
  obtain ⟨l, hl, hmatrix, hresiduals⟩ := hsystem.exists_linearizeAt #v[Scalar.half] .blank
  have start : Descent.start singleStep.settings system #v[Scalar.half] = _ := Descent.start_eq hl
  rw [if_pos (ExactFinite.isFinite l.error)] at start
  have faithful : Descent.Faithful system
      ⟨#v[Scalar.half], l.error, singleStep.settings.initialDamping, 0, l, .blank, .blank, true⟩ :=
    Descent.faithful_start hl
  obtain ⟨tried, trial, there, hattempt, herror, -, -, hthere⟩ :=
    Descent.attempt_affine singleStep.settings hsystem faithful
  have damping : singleStep.settings.initialDamping = 10 := by
    simp [singleStep, SolveOptions.settings, Settings.default]
  have before : l.residuals.get 0 = 1 / 2 := by
    rw [hresiduals, Matrix.one_mulVec, sub_zero]
    show (Scalar.half : ℝ) = _
    rw [ExactScalar.half_eq]
    norm_num
  -- eleven times the step is a half
  have after : there.residuals.get 0 = 5 / 11 := by
    have solves := NormalEquations.mulVec_solve l (by rw [damping]; norm_num :
      0 < singleStep.settings.initialDamping)
    dsimp only at hthere
    generalize ((NormalEquations.ofLinearization l).solve singleStep.settings.initialDamping).get =
      delta at hthere solves
    have step := congrFun solves 0
    simp only [hmatrix, damping, Matrix.transpose_one, Matrix.mul_one, Matrix.add_mulVec,
      Matrix.smul_mulVec, Matrix.one_mulVec, Pi.add_apply, Pi.smul_apply, smul_eq_mul,
      before] at step
    rw [hthere, Matrix.one_mulVec, Pi.sub_apply, before]
    linarith
  have better : there.error < tried.error := by
    rw [herror, Linearization.error_single after, Linearization.error_single before]
    norm_num
  have small : there.error < singleStep.settings.epsilon := by
    have epsilon : singleStep.settings.epsilon = 1 / 4 := epsilon_singleStep
    rw [epsilon, Linearization.error_single after]
    norm_num
  have ended : ∃ d, Descent.step singleStep.settings system
      ⟨#v[Scalar.half], l.error, singleStep.settings.initialDamping, 0, l, .blank, .blank, true⟩ =
        .ok (.ended d .errorBelowEpsilon) := by
    rw [Descent.step, if_neg (by simp [singleStep, SolveOptions.settings]), hattempt,
      Descent.judge_of_less ((ExactOrder.less_iff _ _).mpr better), Descent.accept,
      if_pos ((ExactOrder.less_iff _ _).mpr small)]
    exact ⟨_, rfl⟩
  obtain ⟨d, hd⟩ := ended
  refine ⟨d, minimizeWithin_eq_ok.mpr ⟨validate_singleStep, #v[Scalar.half], _, rfl, start, ?_⟩⟩
  show Descent.run singleStep.settings system (1 + 1) _ = _
  rw [Descent.run, hd]

/-- The first run fails, and `x ^ x` is dropped.  The second one converges, and `x` is kept. -/
theorem relax_keeps_converged_onlyX :
    ∃ d, minimize singleStep.settings ((Equations.mk ["x"] [onlyX]).residualSystem 1) halfStart =
        some (.ok (d, .errorBelowEpsilon)) ∧
      singleStep.isMet d.point.toList onlyX = true ∧
      (relax (singleStep.minimizer ["x"]) singleStep.isMet [selfPower, onlyX] halfStart :
        Except (SolveError ℝ) _) = .ok ([false, true], d.point.toList) := by
  obtain ⟨d, hd⟩ := minimize_halfStart affine_onlyX
  have positive : 0 < singleStep.epsilon := by norm_num [epsilon_singleStep]
  have within : singleStep.epsilon ≤ 1 / 4 := epsilon_singleStep.le
  have met : singleStep.isMet d.point.toList onlyX = true :=
    SolveOptions.isMet_of_errorBelowEpsilon positive (by linarith) hd onlyX
      (List.mem_singleton_self _)
  -- the first run ends at once, for `x ^ x` cannot be evaluated
  have refused : ∃ e, minimize singleStep.settings
      ((Equations.mk ["x"] [selfPower, onlyX]).residualSystem 1) halfStart = some (.error e) := by
    rw [minimize, minimizeWithin, validate_singleStep]
    exact ⟨_, rfl⟩
  have failed : singleStep.minimizer ["x"] [selfPower, onlyX] halfStart = none := by
    obtain ⟨e, he⟩ := refused
    exact SolveOptions.minimizer_eq.trans (he ▸ rfl)
  have found : singleStep.minimizer ["x"] [onlyX] halfStart = some d.point.toList :=
    SolveOptions.minimizer_eq.trans (hd ▸ rfl)
  have unmet : singleStep.isMet halfStart selfPower = false := rfl
  -- both runs start at the same point, since the first one has not moved it
  let runs := [([selfPower, onlyX], halfStart), ([onlyX], halfStart)]
  have second : (relax (logged (singleStep.minimizer ["x"])) (fun y => singleStep.isMet y.1) [onlyX]
      (halfStart, [([selfPower, onlyX], halfStart)]) : Except (SolveError ℝ) _) =
        .ok ([true], d.point.toList, runs) := by
    rw [relax_of_met (List.cons_ne_nil _ _)] <;> simp [logged, found, met, runs]
  have first : (relax (logged (singleStep.minimizer ["x"])) (fun y => singleStep.isMet y.1)
      [selfPower, onlyX] (halfStart, []) : Except (SolveError ℝ) _) =
        .ok ([false, true], d.point.toList, runs) := by
    rw [relax_of_unmet (List.cons_ne_nil _ _) (i := 0)
      (by simp [logged, failed, unmet, List.findIdx?_cons])]
    simp [logged, failed, second, Except.map]
  obtain ⟨flags, final, runs', hlogged, plain, converged⟩ :=
    relax_keeps_converged ["x"] [selfPower, onlyX] halfStart singleStep positive within
  obtain ⟨rfl, rfl, rfl⟩ : flags = [false, true] ∧ final = d.point.toList ∧ runs' = runs := by
    simpa using hlogged.symm.trans first
  obtain ⟨kept, -⟩ := converged 1 [onlyX] halfStart d rfl hd
  exact ⟨d, hd, kept onlyX (List.mem_singleton_self _), plain⟩

end Drafting
