import Drafting.Proofs.Double.Growth
import Drafting.Proofs.LeastSquares.Truth
import Drafting.Proofs.Result

namespace Drafting

open Relation

/-!
# Which searches come to an end

With a limit on the steps every search ends.  Without one a search ends iff it never rejects a step
and keeps its damping.  Every step that is accepted lowers the error, and every step that is
rejected raises the damping, as long as that is a normal double; neither goes on forever.  But a
subnormal damping may stay what it is when it is multiplied by a factor above one, and zero does so
whatever the factor.  From then on all steps are the same.

* `minimize_ne_none` — searches with a limit;
* `Descent.Stuck` — a step that leads nowhere;
* `Descent.ends_or_stuck` — a search ends, or gets stuck;
* `Descent.run_of_stuck` — what is stuck does not end;
* `minimizeWithin_ends_iff` — searches for solutions of equations, on doubles;
* `not_ends_crawling` — a search that does not end.
-/

namespace Iterate

variable {F : Type} [Scalar F] {m n : Nat} {settings : Settings F} {system : ResidualSystem F m n}
  {p' : Iterate F n} {x trial : Vector F n} {here there : Linearization F m n} {damping : F}

/-- The judgement of a trial does not depend on the number of steps. -/
theorem judge_shift (k j : Nat) :
    judge settings ⟨x, damping, j⟩ trial here there =
      (judge settings ⟨x, damping, k⟩ trial here there).map
        (fun p => { p with iterations := j + 1 }) (fun o => { o with iterations := j + 1 }) := by
  unfold judge
  split
  · dsimp only
    split
    · rfl
    split
    · rfl
    split <;> rfl
  · dsimp only
    split <;> rfl

/-- Without a limit no step depends on how many there have been. -/
theorem step_shift (hmax : settings.maxSteps = none) {k : Nat}
    (here_eq : system.linearizeAt x .blank = .ok here)
    (h : step settings system ⟨x, damping, k⟩ = .ok (.inl p')) (j : Nat) :
    step settings system ⟨x, damping, j⟩ = .ok (.inl { p' with iterations := j + 1 }) := by
  rw [step_eq here_eq, hmax] at h ⊢
  rw [if_neg (by simp)] at h ⊢
  dsimp only at h ⊢
  split at h
  · next hfinite =>
    rw [if_pos hfinite]
    obtain ⟨there, hthere, hjudge⟩ := map_eq_ok.mp h
    refine map_eq_ok.mpr ⟨there, hthere, ?_⟩
    rw [judge_shift k j, hjudge]
    rfl
  · cases h

end Iterate

namespace Descent

/-! ### Steps -/

section Steps

variable {F : Type} [Scalar F] {m n : Nat} {settings : Settings F} {system : ResidualSystem F m n}
  {guess : List F} {d d' : Descent F m n}

/-- A step leads from one state of a search to the next. -/
def StepsTo (settings : Settings F) (system : ResidualSystem F m n) (d d' : Descent F m n) : Prop :=
  d.step settings system = .ok (.goesOn d')

/-- A step leads nowhere: point, error and damping are what they were. -/
def Stuck (settings : Settings F) (system : ResidualSystem F m n) (d : Descent F m n) : Prop :=
  ∃ d', StepsTo settings system d d' ∧
    d'.point = d.point ∧ d'.error = d.error ∧ d'.damping = d.damping

/-- The states that a search near a guess comes to. -/
def Reachable (settings : Settings F) (system : ResidualSystem F m n) (guess : List F)
    (d : Descent F m n) : Prop :=
  ∃ x d₀, x.toList = guess ∧ start settings system x = .ok d₀ ∧
    ReflTransGen (StepsTo settings system) d₀ d

/-- A step that leads on from a state was tried, and judged. -/
theorem StepsTo.exists_trial (h : StepsTo settings system d d') :
    ∃ x l, judge settings { d.refresh with iterations := d.iterations + 1 } x l = .goesOn d' := by
  unfold StepsTo step at h
  split at h
  · cases h
  unfold attempt at h
  dsimp only at h
  split at h
  · obtain ⟨l, -, hjudge⟩ := bind_eq_ok.mp h
    exact ⟨_, l, Except.ok.inj hjudge⟩
  · cases h

/-- What a step changes: it lowers the error, or it raises the damping. -/
theorem StepsTo.cases (h : StepsTo settings system d d') :
    (Scalar.less d'.error d.error = true ∧ d'.damping = d.damping / settings.lower) ∨
    (d'.point = d.point ∧ d'.error = d.error ∧ d'.damping = d.damping * settings.raise ∧
      Scalar.isFinite (d.damping * settings.raise) = true) := by
  obtain ⟨x, l, hjudge⟩ := h.exists_trial
  rcases of_judge_eq_goesOn hjudge with ⟨better, rfl⟩ | ⟨finite, rfl⟩
  · exact .inl ⟨by simpa using better, by simp⟩
  · exact .inr ⟨by simp, by simp, by simp, by simpa using finite⟩

theorem StepsTo.iterations (h : StepsTo settings system d d') :
    d'.iterations = d.iterations + 1 := by
  obtain ⟨x, l, hjudge⟩ := h.exists_trial
  rcases of_judge_eq_goesOn hjudge with ⟨-, rfl⟩ | ⟨-, rfl⟩ <;> rfl

/-- With a limit a search ends when the steps are used up, if not before. -/
theorem run_ne_none {limit fuel : Nat} (hlimit : settings.maxSteps = some limit)
    (hfuel : limit - d.iterations < fuel) : d.run settings system fuel ≠ none := by
  induction fuel generalizing d with
  | zero => exact absurd hfuel (Nat.not_lt_zero _)
  | succ fuel ih =>
    rw [run]
    cases hstep : d.step settings system with
    | error e => exact Option.some_ne_none _
    | ok p =>
      cases p with
      | ended d' why => exact Option.some_ne_none _
      | goesOn d' =>
        have counted := StepsTo.iterations hstep
        have room : d.iterations < limit := by
          by_contra used
          rw [step, if_pos (by simp [hlimit]; omega)] at hstep
          cases hstep
        exact ih (by omega)

end Steps

/-! ### Getting stuck -/

section Stuck

variable {F : Type} [Scalar F] {m n : Nat} {settings : Settings F} {system : ResidualSystem F m n}
  {d d' : Descent F m n}

/-- A step of a search, as a plain step. -/
theorem StepsTo.iterate_step (hsystem : system.Overwrites) (hd : d.Faithful system)
    (h : StepsTo settings system d d') :
    d.iterate.step settings system = .ok (.inl d'.iterate) := by
  rw [← forget_step hsystem hd, h]
  rfl

/-- A step of the iterate is a step of the whole state. -/
theorem exists_stepsTo (hsystem : system.Overwrites) (hd : d.Faithful system) {p : Iterate F n}
    (h : d.iterate.step settings system = .ok (.inl p)) :
    ∃ d', StepsTo settings system d d' ∧ d'.iterate = p := by
  rw [← forget_step hsystem hd] at h
  cases hstep : d.step settings system with
  | error e => rw [hstep] at h; cases h
  | ok r =>
    rw [hstep] at h
    cases r with
    | ended d' why => cases Except.ok.inj h
    | goesOn d' => exact ⟨d', hstep, Sum.inl.inj (Except.ok.inj h)⟩

/-- The error of a search depends on its point alone. -/
theorem Faithful.error_congr (hd : d.Faithful system) (hd' : d'.Faithful system)
    (h : d'.point = d.point) : d'.error = d.error := by
  have same := hd'.current
  rw [h, hd.current] at same
  rw [hd.error, hd'.error, Except.ok.inj same]

/-- A plain step that only counts leads nowhere. -/
theorem stuck_of_step (hsystem : system.Overwrites) (hd : d.Faithful system) {k : Nat}
    (h : d.iterate.step settings system = .ok (.inl ⟨d.point, d.damping, k⟩)) :
    d.Stuck settings system := by
  obtain ⟨d', hstep, heq⟩ := exists_stepsTo hsystem hd h
  have hpoint : d'.point = d.point := congrArg Iterate.point heq
  have herror := hd.error_congr (faithful_of_step hsystem hd hstep) hpoint
  exact ⟨d', hstep, hpoint, herror, congrArg Iterate.damping heq⟩

/-- What is stuck stays stuck. -/
theorem Stuck.step (hsystem : system.Overwrites) (hmax : settings.maxSteps = none)
    (hd : d.Faithful system) (h : d.Stuck settings system) :
    ∃ d', StepsTo settings system d d' ∧ d'.Stuck settings system := by
  obtain ⟨d', hstep, hpoint, -, hdamping⟩ := h
  have again := Iterate.step_shift hmax hd.current (hstep.iterate_step hsystem hd) d'.iterations
  rw [← hpoint, ← hdamping] at again
  exact ⟨d', hstep, stuck_of_step hsystem (faithful_of_step hsystem hd hstep) again⟩

/-- **What is stuck does not end.** -/
theorem run_of_stuck (hsystem : system.Overwrites) (hmax : settings.maxSteps = none)
    (hd : d.Faithful system) (h : d.Stuck settings system) (fuel : Nat) :
    d.run settings system fuel = none := by
  induction fuel generalizing d with
  | zero => rfl
  | succ fuel ih =>
    obtain ⟨d', hstep, hstuck⟩ := h.step hsystem hmax hd
    rw [run, hstep]
    exact ih (faithful_of_step hsystem hd hstep) hstuck

/-- A search that has come to a state goes on from there. -/
theorem run_of_reaches (hsystem : system.Overwrites) (hd : d.Faithful system)
    (h : ReflTransGen (StepsTo settings system) d d')
    (hnone : d'.Faithful system → ∀ fuel, d'.run settings system fuel = none) (fuel : Nat) :
    d.run settings system fuel = none := by
  induction h using ReflTransGen.head_induction_on generalizing fuel with
  | refl => exact hnone hd fuel
  | head hstep _ ih =>
    cases fuel with
    | zero => rfl
    | succ fuel =>
      rw [run, hstep]
      exact ih (faithful_of_step hsystem hd hstep) fuel

end Stuck

/-! ### On doubles -/

section Doubles

variable {m n : Nat} {settings : Settings Float} {system : ResidualSystem Float m n}
  {guess : List Float} {d d' : Descent Float m n}

open Double

/-- The damping is not negative. -/
def DampingOk (d : Descent Float m n) : Prop := sign d.damping.toModel.unpack = .positive

/-- The settings are valid as far as the damping is concerned. -/
structure FactorsOk (settings : Settings Float) : Prop where
  raise : Scalar.less Scalar.one settings.raise = true
  lower : Scalar.less Scalar.one settings.lower = true

/-- The damping goes on not to be negative. -/
theorem DampingOk.step (hfactors : FactorsOk settings) (hd : d.DampingOk)
    (h : StepsTo settings system d d') : d'.DampingOk := by
  unfold DampingOk at hd ⊢
  rcases h.cases with ⟨-, hdamping⟩ | ⟨-, -, hdamping, -⟩ <;> rw [hdamping]
  · exact sign_div hd hfactors.lower
  · exact sign_mul hd hfactors.raise

/-- The error, and how far the damping is from the end of all doubles. -/
def potential (d : Descent Float m n) : Float × Nat := (d.error, 2 ^ 64 - bits d.damping)

/-- The error goes down, or the damping up. -/
def Below : Float × Nat → Float × Nat → Prop :=
  Prod.Lex (fun x y => Scalar.less x y = true) (· < ·)

theorem wellFounded_below : WellFounded Below :=
  WellFounded.prod_lex wellFounded_less Nat.lt_wfRel.wf

/-- **One step** that leads somewhere. -/
theorem StepsTo.below (hfactors : FactorsOk settings) (hd : d.DampingOk)
    (h : StepsTo settings system d d') (hstuck : ¬ d.Stuck settings system) :
    Below d'.potential d.potential := by
  rcases h.cases with ⟨hless, -⟩ | ⟨hpoint, herror, hdamping, hfinite⟩
  · exact Prod.Lex.left _ _ hless
  · have hle := (bits_le_mul hd hfactors.raise hfinite).1
    rw [← hdamping] at hle
    have hne : bits d'.damping ≠ bits d.damping := fun heq =>
      hstuck ⟨d', h, hpoint, herror, bits_injective heq⟩
    have hlt := bits_lt d'.damping
    unfold potential
    rw [herror]
    exact Prod.Lex.right _ (by omega)

/-- **All steps.**  A search ends, or it gets stuck. -/
theorem ends_or_stuck (hfactors : FactorsOk settings) (hd : d.DampingOk) :
    (∃ fuel, d.run settings system fuel ≠ none) ∨
      ∃ d', ReflTransGen (StepsTo settings system) d d' ∧ d'.Stuck settings system := by
  induction hp : d.potential using wellFounded_below.induction generalizing d with
  | _ p ih =>
    subst hp
    by_cases hstuck : d.Stuck settings system
    · exact Or.inr ⟨d, .refl, hstuck⟩
    cases hstep : d.step settings system with
    | error e => exact Or.inl ⟨1, by rw [run, hstep]; simp⟩
    | ok r =>
      cases r with
      | ended d' why => exact Or.inl ⟨1, by rw [run, hstep]; simp⟩
      | goesOn d' =>
        have h : StepsTo settings system d d' := hstep
        rcases ih _ (h.below hfactors hd hstuck) (hd.step hfactors h) rfl with
          ⟨fuel, hfuel⟩ | ⟨d'', hreach, hstuck⟩
        · exact Or.inl ⟨fuel + 1, by rw [run, hstep]; exact hfuel⟩
        · exact Or.inr ⟨d'', .head h hreach, hstuck⟩

/-- Where a search is stuck, the damping is less than all normal numbers, and the factor does not
    move it. -/
theorem Stuck.damping (hfactors : FactorsOk settings) (hd : d.DampingOk)
    (h : d.Stuck settings system) :
    Scalar.less d.damping leastNormal = true ∧ d.damping * settings.raise = d.damping := by
  obtain ⟨d', hstep, -, herror, hdamping⟩ := h
  rcases hstep.cases with ⟨hless, -⟩ | ⟨-, -, hraise, hfinite⟩
  · rw [herror, less_irrefl] at hless
    cases hless
  · have stays : d.damping * settings.raise = d.damping := hraise.symm.trans hdamping
    exact ⟨less_leastNormal_of_mul_eq hd hfactors.raise hfinite stays, stays⟩

/-- The damping is not negative wherever a search comes to. -/
theorem DampingOk.reaches (hfactors : FactorsOk settings) (hd : d.DampingOk)
    (h : ReflTransGen (StepsTo settings system) d d') : d'.DampingOk := by
  induction h with
  | refl => exact hd
  | tail _ hstep ih => exact ih.step hfactors hstep

end Doubles

end Descent

/-! ### Whole searches -/

/-- **With a limit every search ends**, and the steps it may try are enough to see that. -/
theorem minimize_ne_none {F : Type} [Scalar F] {m n : Nat} {settings : Settings F} {limit : Nat}
    (hlimit : settings.maxSteps = some limit) (system : ResidualSystem F m n) (guess : List F) :
    minimize settings system guess ≠ none := by
  unfold minimize minimizeWithin
  split
  · exact Option.some_ne_none _
  split
  · exact Option.some_ne_none _
  split
  · exact Option.some_ne_none _
  next d hstart =>
  have first : d.iterations = 0 :=
    congrArg Iterate.iterations (Descent.of_start_eq_ok hstart).2
  refine Descent.run_ne_none hlimit ?_
  rw [first, Settings.fuel, hlimit]
  exact Nat.lt_succ_self limit

section Search

open Double

variable {settings : Settings Float}

/-- Valid settings start with a damping that is not negative, and change it by factors above one. -/
theorem Settings.factors_of_validate (h : settings.validate = .ok ()) :
    Scalar.less Scalar.zero settings.initialDamping = true ∧ Descent.FactorsOk settings :=
  have valid := of_validate h
  ⟨valid.2.1, valid.2.2.1, valid.2.2.2⟩

variable {m n : Nat} {system : ResidualSystem Float m n} {guess : List Float}

/-- The damping of a new search. -/
theorem Descent.dampingOk_start {x : Vector Float n} {d : Descent Float m n}
    (hvalid : settings.validate = .ok ()) (h : Descent.start settings system x = .ok d) :
    d.DampingOk := by
  have hdamping : d.damping = settings.initialDamping :=
    congrArg Iterate.damping (of_start_eq_ok h).2
  unfold DampingOk
  rw [hdamping]
  exact sign_of_zero_less (settings.factors_of_validate hvalid).1

/-- A search with valid settings is over at once, or it starts. -/
theorem minimizeWithin_cases (hvalid : settings.validate = .ok ())
    (system : ResidualSystem Float m n) (guess : List Float) :
    (∀ d, ¬ Descent.Reachable settings system guess d) ∧
      (∀ fuel, minimizeWithin fuel settings system guess ≠ none) ∨
    ∃ x d, x.toList = guess ∧ Descent.start settings system x = .ok d ∧
      ∀ fuel, minimizeWithin fuel settings system guess = d.run settings system fuel := by
  unfold minimizeWithin
  rw [hvalid]
  cases hx : ofListExact? n guess with
  | none =>
    refine Or.inl ⟨fun d hd => ?_, nofun⟩
    obtain ⟨x, -, htoList, -⟩ := hd
    rw [ofListExact?_eq_some.mpr htoList] at hx
    cases hx
  | some x =>
    have hguess := ofListExact?_eq_some.mp hx
    dsimp only
    cases hstart : Descent.start settings system x with
    | error e =>
      refine Or.inl ⟨fun d hd => ?_, nofun⟩
      obtain ⟨y, d₀, htoList, hstart', -⟩ := hd
      obtain rfl : y = x := Vector.toList_inj.mp (htoList.trans hguess.symm)
      rw [hstart] at hstart'
      cases hstart'
    | ok d => exact Or.inr ⟨x, d, hguess, hstart, fun _ => rfl⟩

end Search

/-- **Which searches end.**  With valid settings and no limit on the steps, a search for a solution
    of equations ends iff it does not come to a state where a step leads nowhere.  In such a state
    the damping is less than all normal numbers, and multiplying it by its factor does not change
    it. -/
theorem minimizeWithin_ends_iff (s : Equations Float) (n : Nat) (settings : Settings Float)
    (guess : List Float) (hvalid : settings.validate = .ok ()) (hmax : settings.maxSteps = none) :
    ((∃ fuel, minimizeWithin fuel settings (s.residualSystem n) guess ≠ none) ↔
      ∀ d, Descent.Reachable settings (s.residualSystem n) guess d →
        ¬ d.Stuck settings (s.residualSystem n)) ∧
    ∀ d, Descent.Reachable settings (s.residualSystem n) guess d →
      d.Stuck settings (s.residualSystem n) →
      Scalar.less d.damping Double.leastNormal = true ∧ d.damping * settings.raise = d.damping := by
  have hsystem := s.residualSystem_overwrites n
  have hfactors := (settings.factors_of_validate hvalid).2
  constructor
  · rcases minimizeWithin_cases hvalid (s.residualSystem n) guess with
      ⟨unreachable, ends⟩ | ⟨x, d₀, hguess, hstart, hrun⟩
    · exact ⟨fun _ d hd => absurd hd (unreachable d), fun _ => ⟨0, ends 0⟩⟩
    have hfaithful := (Descent.of_start_eq_ok hstart).1
    constructor
    · -- from a state that is stuck the search would never end
      rintro ⟨fuel, hfuel⟩ d ⟨y, d₁, hy, hstart', hreach⟩ hstuck
      obtain rfl : y = x := Vector.toList_inj.mp (hy.trans hguess.symm)
      obtain rfl := Except.ok.inj (hstart.symm.trans hstart')
      apply hfuel
      rw [hrun]
      exact Descent.run_of_reaches hsystem hfaithful hreach
        (fun hd => Descent.run_of_stuck hsystem hmax hd hstuck) fuel
    · intro hfree
      rcases Descent.ends_or_stuck hfactors (Descent.dampingOk_start hvalid hstart) with
        ⟨fuel, hfuel⟩ | ⟨d, hreach, hstuck⟩
      · exact ⟨fuel, by rwa [hrun]⟩
      · exact absurd hstuck (hfree d ⟨x, d₀, hguess, hstart, hreach⟩)
  · rintro d ⟨x, d₀, -, hstart, hreach⟩ hstuck
    have hdamping := (Descent.dampingOk_start hvalid hstart).reaches hfactors hreach
    exact hstuck.damping hfactors hdamping

/-- Started at a solution, a search never comes to such a state. -/
theorem minimizeWithin_ends_atSolution :
    (Settings.default : Settings Float).validate = .ok () ∧
      ∀ d, Descent.Reachable Settings.default
          ((⟨["x"], [⟨[.load 0, .constant 2.0, .binary .sub], 1⟩]⟩ : Equations Float).residualSystem
            1) [2.0] d →
        ¬ d.Stuck Settings.default
          ((⟨["x"], [⟨[.load 0, .constant 2.0, .binary .sub], 1⟩]⟩ : Equations Float).residualSystem
            1) := by
  refine ⟨rfl, (minimizeWithin_ends_iff _ 1 Settings.default [2.0] rfl rfl).1.mp ⟨1, ?_⟩⟩
  rw [← Option.isSome_iff_ne_none]
  decide +kernel

/-! ### A search that does not end -/

/-- The equation `sqrt(x) + 1`, which has no solution and gets steeper toward zero. -/
def rootPlusOne : Equations Float :=
  ⟨["x"], [⟨[.load 0, .call .sqrt, .constant 1.0, .binary .add], 1⟩]⟩

/-- Valid settings that start with the smallest damping, and raise it by a tenth. -/
def crawling : Settings Float where
  initialDamping := Float.ofBits 1
  raise := 1.1
  lower := 10.0
  epsilon := Settings.defaultEpsilon
  maxSteps := none

/-- A tenth of the smallest damping is nothing.  From zero the step leads to a negative number,
    which has no root, so that it is not taken. -/
theorem step_crawling :
    Iterate.step crawling (rootPlusOne.residualSystem 1) ⟨#v[0.0], crawling.initialDamping, 0⟩ =
      .ok (.inl ⟨#v[0.0], crawling.initialDamping, 1⟩) := by
  rw [← toOption_eq_some]
  decide +kernel

/-- The search near zero does not end. -/
theorem not_ends_crawling :
    Equations.ofFormulas ["x"] [.binary .add (.call "sqrt" [.symbol "x"]) (.number 1.0)] =
      .ok rootPlusOne ∧
    crawling.validate = .ok () ∧ crawling.maxSteps = none ∧
    ∀ fuel, minimizeWithin fuel crawling (rootPlusOne.residualSystem 1) [0.0] = none := by
  have hvalid : crawling.validate = .ok () := rfl
  refine ⟨rfl, hvalid, rfl, fun fuel => ?_⟩
  have hsystem := rootPlusOne.residualSystem_overwrites 1
  rcases minimizeWithin_cases hvalid (rootPlusOne.residualSystem 1) [0.0] with
    ⟨-, ends⟩ | ⟨x, d, hguess, hstart, hrun⟩
  · exact absurd (by decide +kernel) (ends 0)
  obtain rfl : x = #v[0.0] := Vector.toList_inj.mp hguess
  obtain ⟨hd, hiterate⟩ := Descent.of_start_eq_ok hstart
  have hpoint : d.point = #v[0.0] := congrArg Iterate.point hiterate
  have hdamping : d.damping = crawling.initialDamping := congrArg Iterate.damping hiterate
  have leadsNowhere : d.iterate.step crawling (rootPlusOne.residualSystem 1) =
      .ok (.inl ⟨d.point, d.damping, 1⟩) := by
    rw [hpoint, hdamping, hiterate, step_crawling]
  rw [hrun]
  exact Descent.run_of_stuck hsystem rfl hd (Descent.stuck_of_step hsystem hd leadsNowhere) fuel

end Drafting
