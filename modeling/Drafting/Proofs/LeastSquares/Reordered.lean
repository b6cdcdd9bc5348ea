import Drafting.Proofs.LeastSquares.Descending

namespace Drafting

/-!
# Equations and variables in another order

In exact arithmetic a search does not depend on the order in which the equations and the variables
are listed.  The error and the normal equations are sums over the equations, and with the variables
in another order the normal equations are the same in another order.  Elimination may then exchange
other rows, but as the damping is positive there is only one step that it can come to.

* `ResidualSystem.Reorders` — two systems that differ in the order alone;
* `NormalEquations.solve_reorder` — the steps of the two;
* `Descent.step_reorder`, `Descent.run_reorder` — one step of a search, and all of them;
* `minimizeWithin_of_reorders` — whole searches.
-/

open Matrix

variable {F : Type} {m m' n n' : Nat} (σ : Fin m' ≃ Fin m) (τ : Fin n' ≃ Fin n)

/-! ### Vectors, matrices and buffers -/

/-- The entries of a vector in another order: at place `j` stands entry `τ j`. -/
def reorder (x : Vector F n) : Vector F n' := Vector.ofFn fun j => x.get (τ j)

@[simp] theorem get_reorder (x : Vector F n) (j : Fin n') : (reorder τ x).get j = x.get (τ j) :=
  get_ofFn _ j

theorem reorder_refl (x : Vector F n) : reorder (.refl (Fin n)) x = x :=
  ext_get fun j => get_reorder _ x j

theorem reorder_symm (x : Vector F n) : reorder τ.symm (reorder τ x) = x :=
  ext_get fun j => by simp

theorem reorder_replicate (x : F) : reorder τ (Vector.replicate n x) = Vector.replicate n' x :=
  ext_get fun j => by simp

theorem reorder_zipWith (f : F → F → F) (x y : Vector F n) :
    reorder τ (Vector.zipWith f x y) = Vector.zipWith f (reorder τ x) (reorder τ y) :=
  ext_get fun j => by simp [get_zipWith]

/-- The entries of a matrix, with the rows and the columns in another order. -/
def Mat.reorder (a : Mat F m n) : Mat F m' n' := ofFn fun i j => a.entry (σ i) (τ j)

@[simp] theorem Mat.entry_reorder (a : Mat F m n) (i : Fin m') (j : Fin n') :
    (a.reorder σ τ).entry i j = a.entry (σ i) (τ j) :=
  entry_ofFn _ i j

/-- A constant matrix is the same in any order. -/
theorem Mat.reorder_replicate (x : F) :
    reorder σ τ (Vector.replicate m (Vector.replicate n x)) =
      Vector.replicate m' (Vector.replicate n' x) := by
  refine ext_entry fun i j => ?_
  rw [entry_reorder]
  simp [entry]

theorem Mat.reorder_symm (a : Mat F m n) : (a.reorder σ τ).reorder σ.symm τ.symm = a :=
  ext_entry fun i j => by simp

/-- A linearization with the equations and the variables in another order. -/
def Linearization.reorder (l : Linearization F m n) : Linearization F m' n' where
  residuals := Drafting.reorder σ l.residuals
  jacobian := l.jacobian.reorder σ τ

theorem Linearization.reorder_symm (l : Linearization F m n) :
    (l.reorder σ τ).reorder σ.symm τ.symm = l := by
  rw [reorder, reorder, Drafting.reorder_symm, Mat.reorder_symm]

theorem Linearization.matrix_reorder (l : Linearization F m n) :
    (l.reorder σ τ).matrix = l.matrix.submatrix σ τ := by
  ext i j
  exact Mat.entry_reorder σ τ l.jacobian i j

theorem Linearization.get_residuals_reorder (l : Linearization F m n) :
    (l.reorder σ τ).residuals.get = l.residuals.get ∘ σ :=
  funext fun i => get_reorder σ l.residuals i

/-- Normal equations with the variables in another order. -/
def NormalEquations.reorder (e : NormalEquations F n) : NormalEquations F n' where
  matrix := e.matrix.reorder τ τ
  gradient := Drafting.reorder τ e.gradient

/-- The state of a search with the equations and the variables in another order. -/
def Descent.reorder (d : Descent F m n) : Descent F m' n' where
  point := Drafting.reorder τ d.point
  error := d.error
  damping := d.damping
  iterations := d.iterations
  current := d.current.reorder σ τ
  spare := d.spare.reorder σ τ
  normal := d.normal.reorder τ
  stale := d.stale

/-- What a step leads to, with the equations and the variables in another order. -/
def Progress.reorder : Progress F m n → Progress F m' n'
  | .goesOn d => .goesOn (d.reorder σ τ)
  | .ended d why => .ended (d.reorder σ τ) why

/-- Two systems differ in the order alone: equation `i` of the second is equation `σ i` of the
    first, and its variable `j` is variable `τ j`. -/
def ResidualSystem.Reorders (system : ResidualSystem F m n) (system' : ResidualSystem F m' n') :
    Prop :=
  ∀ x b l, system x b = .ok l → system' (Drafting.reorder τ x) (b.reorder σ τ) = .ok (l.reorder σ τ)

/-- One guess is the other with the variables in another order. -/
structure GuessReorders (guess guess' : List F) : Prop where
  length : guess'.length = n'
  entry : ∀ j : Fin n', guess'[(j : Nat)]? = guess[(τ j : Nat)]?

/-- Two searches stand at the same point, up to the order of the variables, with the same error,
    number of steps and damping. -/
structure Descent.SameUpTo (d : Descent F m n) (d' : Descent F m' n') : Prop where
  point : ∀ j, d'.point.get j = d.point.get (τ j)
  error : d'.error = d.error
  iterations : d'.iterations = d.iterations
  damping : d'.damping = d.damping

/-- A guess in another order is the list of the vector in that order. -/
theorem GuessReorders.toList_reorder {x : Vector F n} {guess' : List F}
    (h : GuessReorders τ x.toList guess') : (reorder τ x).toList = guess' := by
  refine List.ext_getElem? fun k => ?_
  by_cases hk : k < n'
  · rw [h.entry ⟨k, hk⟩, getElem?_toList]
    exact (getElem?_toList _ ⟨k, hk⟩).trans (congrArg some (get_reorder τ x ⟨k, hk⟩))
  · rw [List.getElem?_eq_none (by simpa using hk),
      List.getElem?_eq_none (by simpa [h.length] using hk)]

/-- A system with the equations and the variables in another order. -/
def ResidualSystem.reorder (system : ResidualSystem F m n) : ResidualSystem F m' n' := fun x b =>
  (system (Drafting.reorder τ.symm x) (b.reorder σ.symm τ.symm)).map (·.reorder σ τ)

/-- A system in another order is a reordering of it. -/
theorem ResidualSystem.reorders_reorder (system : ResidualSystem F m n) :
    system.Reorders σ τ (system.reorder σ τ) := by
  intro x b l hl
  rw [reorder, Drafting.reorder_symm, Linearization.reorder_symm, hl]
  rfl

variable [Scalar F]

theorem Linearization.reorder_blank : (blank : Linearization F m n).reorder σ τ = blank := by
  simp [reorder, blank, reorder_replicate, Mat.reorder_replicate]

theorem NormalEquations.reorder_blank : (blank : NormalEquations F n).reorder τ = blank := by
  simp [reorder, blank, reorder_replicate, Mat.reorder_replicate]

/-- Slopes are as small in any order. -/
theorem Linearization.isFlat_reorder (epsilon : F) (l : Linearization F m n) :
    (l.reorder σ τ).isFlat epsilon = l.isFlat epsilon := by
  rw [Bool.eq_iff_iff, isFlat_iff, isFlat_iff]
  simp only [reorder, Mat.entry_reorder]
  exact σ.forall_congr fun i => τ.forall_congr fun j => Iff.rfl

/-- All entries of a vector are finite iff each of them is. -/
theorem allFinite_iff {x : Vector F n} :
    Scalar.allFinite x.toList = true ↔ ∀ j, Scalar.isFinite (x.get j) = true := by
  rw [Scalar.allFinite, List.all_eq_true]
  constructor
  · intro h j
    exact h _ (Vector.mem_toList_iff.mpr (Vector.getElem_mem j.isLt))
  · intro h y hy
    obtain ⟨j, hj, rfl⟩ := Vector.getElem_of_mem (Vector.mem_toList_iff.mp hy)
    exact h ⟨j, hj⟩

/-- Entries are finite in any order. -/
theorem allFinite_reorder (x : Vector F n) :
    Scalar.allFinite (reorder τ x).toList = Scalar.allFinite x.toList := by
  rw [Bool.eq_iff_iff, allFinite_iff, allFinite_iff]
  simp only [get_reorder]
  exact τ.forall_congr fun j => Iff.rfl

/-! ### Errors and steps -/

section Exact

variable {K : Type} [ExactScalar K]

/-- The error is a sum over the equations. -/
theorem Linearization.error_reorder (l : Linearization K m n) :
    (l.reorder σ τ).error = l.error := by
  rw [error_eq, error_eq, get_residuals_reorder]
  congr 1
  exact σ.sum_comp fun i => l.residuals.get i * l.residuals.get i

namespace NormalEquations

/-- The normal equations are sums over the equations. -/
theorem ofLinearization_reorder (l : Linearization K m n) :
    ofLinearization (l.reorder σ τ) = (ofLinearization l).reorder τ := by
  have matrix : (ofLinearization (l.reorder σ τ)).matrix =
      (ofLinearization l).matrix.reorder τ τ := by
    refine Mat.ext_entry fun i j => ?_
    simp only [ofLinearization, Mat.entry_reorder, Mat.entry_ofFn, sumFrom_ofFn,
      Linearization.reorder]
    exact σ.sum_comp fun k => l.jacobian.entry k (τ i) * l.jacobian.entry k (τ j)
  have gradient : (ofLinearization (l.reorder σ τ)).gradient =
      Drafting.reorder τ (ofLinearization l).gradient := by
    refine ext_get fun i => ?_
    simp only [ofLinearization, get_reorder, get_ofFn, sumFrom_ofFn, Linearization.reorder,
      Mat.entry_reorder]
    exact σ.sum_comp fun k => l.jacobian.entry k (τ i) * l.residuals.get k
  rw [reorder, ← matrix, ← gradient]

variable [LinearOrder K] [IsStrictOrderedRing K] [ExactOrder K]

/-- **Steps** do not depend on the order, whatever rows elimination exchanges: the step in another
    order solves the equations in another order, and nothing else does. -/
theorem solve_reorder (l : Linearization K m n) {damping : K} (h : 0 < damping) :
    ((ofLinearization l).reorder τ).solve damping =
      Drafting.reorder τ ((ofLinearization l).solve damping) := by
  -- these are normal equations, too: those of the system with its variables in the other order
  rw [← ofLinearization_reorder (.refl (Fin m)) τ l]
  refine ext_get fun j => congrFun ((mulVec_eq_iff _ h).mp ?_).symm j
  have damped : (l.reorder (.refl (Fin m)) τ).matrixᵀ * (l.reorder (.refl (Fin m)) τ).matrix +
      damping • 1 = (l.matrixᵀ * l.matrix + damping • 1).submatrix τ τ := by
    rw [Linearization.matrix_reorder, Matrix.transpose_submatrix, Matrix.submatrix_mul_equiv,
      ← Matrix.submatrix_one_equiv τ]
    rfl
  have step : (Drafting.reorder τ ((ofLinearization l).solve damping)).get =
      ((ofLinearization l).solve damping).get ∘ τ := funext fun j => get_reorder τ _ j
  have inOrder : (((ofLinearization l).solve damping).get ∘ τ) ∘ τ.symm =
      ((ofLinearization l).solve damping).get := by
    rw [Function.comp_assoc, τ.self_comp_symm, Function.comp_id]
  rw [damped, step, Matrix.submatrix_mulVec_equiv, inOrder, mulVec_solve l h,
    Linearization.matrix_reorder, Matrix.transpose_submatrix, Linearization.get_residuals_reorder,
    Matrix.submatrix_mulVec_equiv]
  rfl

end NormalEquations

/-! ### Judgements -/

namespace Descent

variable {settings : Settings K} {system : ResidualSystem K m n} {system' : ResidualSystem K m' n'}
  {x : Vector K n} {d d' : Descent K m n} {p : Progress K m n}

/-- It makes no difference whether normal equations are refreshed before or after reordering. -/
theorem refresh_reorder (d : Descent K m n) :
    (d.reorder σ τ).refresh = d.refresh.reorder σ τ := by
  by_cases hstale : d.stale = true
  · have hstale' : (d.reorder σ τ).stale = true := hstale
    rw [refresh, refresh, if_pos hstale, if_pos hstale']
    rw [show (d.reorder σ τ).current = d.current.reorder σ τ from rfl,
      NormalEquations.ofLinearization_reorder]
    rfl
  · have hstale' : ¬ (d.reorder σ τ).stale = true := hstale
    rw [refresh, refresh, if_neg hstale, if_neg hstale']

/-- Nor whether a trial is accepted before or after it. -/
theorem accept_reorder (settings : Settings K) (d : Descent K m n) (x : Vector K n)
    (l : Linearization K m n) (e : K) :
    (d.reorder σ τ).accept settings (Drafting.reorder τ x) (l.reorder σ τ) e =
      (d.accept settings x l e).reorder σ τ := by
  unfold accept
  dsimp only
  rw [Linearization.isFlat_reorder, apply_ite (Progress.reorder σ τ),
    apply_ite (Progress.reorder σ τ), apply_ite (Progress.reorder σ τ)]
  rfl

/-- Nor whether it is rejected. -/
theorem reject_reorder (settings : Settings K) (d : Descent K m n) (l : Linearization K m n)
    (e : K) :
    (d.reorder σ τ).reject settings (l.reorder σ τ) e = (d.reject settings l e).reorder σ τ := by
  unfold reject
  dsimp only
  rw [apply_ite (Progress.reorder σ τ)]
  rfl

/-- A trial is judged alike in any order of variables and residuals. -/
theorem judge_reorder (settings : Settings K) (d : Descent K m n) (x : Vector K n)
    (l : Linearization K m n) :
    (d.reorder σ τ).judge settings (Drafting.reorder τ x) (l.reorder σ τ) =
      (d.judge settings x l).reorder σ τ := by
  unfold judge
  dsimp only
  rw [Linearization.error_reorder, apply_ite (Progress.reorder σ τ), ← accept_reorder,
    ← reject_reorder]
  rfl

/-! ### Searches -/

variable [LinearOrder K]

/-- Normal equations that are not stale are those of the current linearization, and the damping is
    positive. -/
structure Prepared (d : Descent K m n) : Prop where
  normal : d.stale = false → d.normal = .ofLinearization d.current
  damping : 0 < d.damping

variable [IsStrictOrderedRing K] [ExactOrder K]

theorem Prepared.start (hvalid : settings.validate = .ok ())
    (h : start settings system x = .ok d) : d.Prepared :=
  have underway := Underway.start hvalid h
  ⟨underway.faithful.normal, underway.damping⟩

/-- A step of the search keeps it prepared. -/
theorem Prepared.step (hd : d.Prepared) (hvalid : settings.validate = .ok ())
    (h : StepsTo settings system d d') : d'.Prepared := by
  refine ⟨?_, h.damping_pos hvalid hd.damping⟩
  obtain ⟨x, l, hjudge⟩ := h.exists_trial
  rcases of_judge_eq_goesOn hjudge with ⟨-, rfl⟩ | ⟨-, rfl⟩
  · nofun
  · exact fun _ => (normal_refresh hd.normal).trans (by simp)

/-- What is tried, in another order. -/
theorem attempt_reorder (hsystem : system.Reorders σ τ system') (hd : d.Prepared)
    (h : d.attempt settings system = .ok p) :
    (d.reorder σ τ).attempt settings system' = .ok (p.reorder σ τ) := by
  have delta : (d.refresh.reorder σ τ).normal.solve (d.refresh.reorder σ τ).damping =
      Drafting.reorder τ (d.refresh.normal.solve d.refresh.damping) := by
    show (d.refresh.normal.reorder τ).solve d.refresh.damping = _
    rw [normal_refresh hd.normal, damping_refresh]
    exact NormalEquations.solve_reorder τ d.current hd.damping
  unfold attempt at h ⊢
  dsimp only at h ⊢
  rw [refresh_reorder, delta, allFinite_reorder]
  split at h
  · next finite =>
    rw [if_pos finite]
    obtain ⟨l, hl, hjudge⟩ := bind_eq_ok.mp h
    obtain rfl := Except.ok.inj hjudge
    rw [ResidualSystem.linearizeAt_eq_ok] at hl
    have there := hsystem _ _ _ hl
    rw [reorder_zipWith] at there
    refine bind_eq_ok.mpr ⟨_, ResidualSystem.linearizeAt_eq_ok.mpr there, ?_⟩
    rw [← judge_reorder, reorder_zipWith]
    rfl
  · cases h

/-- **One step**, in another order. -/
theorem step_reorder (hsystem : system.Reorders σ τ system') (hd : d.Prepared)
    (h : d.step settings system = .ok p) :
    (d.reorder σ τ).step settings system' = .ok (p.reorder σ τ) := by
  unfold step at h ⊢
  split at h
  · next used =>
    obtain rfl := Except.ok.inj h
    exact if_pos used
  · next unused =>
    rw [if_neg (show ¬ settings.maxSteps.any (· ≤ (d.reorder σ τ).iterations) = true from unused)]
    exact attempt_reorder σ τ hsystem hd h

/-- **All steps**, in another order. -/
theorem run_reorder (hsystem : system.Reorders σ τ system') (hvalid : settings.validate = .ok ())
    (hd : d.Prepared) {fuel : Nat} {why : Termination}
    (h : d.run settings system fuel = some (.ok (d', why))) :
    (d.reorder σ τ).run settings system' fuel = some (.ok (d'.reorder σ τ, why)) := by
  -- only the start of a step has to be prepared: it is what makes the steps of both searches agree
  induction fuel generalizing d with
  | zero => cases h
  | succ fuel ih =>
    rw [run] at h ⊢
    cases hstep : d.step settings system with
    | error e => rw [hstep] at h; cases h
    | ok p =>
      rw [hstep] at h
      rw [step_reorder σ τ hsystem hd hstep]
      cases p with
      | ended _ _ =>
        cases h
        rfl
      | goesOn next => exact ih (hd.step hvalid hstep) h

omit [LinearOrder K] [ExactOrder K] [IsStrictOrderedRing K] in
/-- The start of a search, in another order. -/
theorem start_reorder (hsystem : system.Reorders σ τ system')
    (h : start settings system x = .ok d) :
    start settings system' (Drafting.reorder τ x) = .ok (d.reorder σ τ) := by
  obtain ⟨l, hl, h⟩ := bind_eq_ok.mp h
  rw [ResidualSystem.linearizeAt_eq_ok] at hl
  have here := hsystem _ _ _ hl
  rw [Linearization.reorder_blank] at here
  rw [start_eq (ResidualSystem.linearizeAt_eq_ok.mpr here), Linearization.error_reorder]
  dsimp only at h
  split at h
  · next finite =>
    rw [if_pos finite]
    obtain rfl := Except.ok.inj h
    refine congrArg Except.ok ?_
    simp only [reorder, Linearization.reorder_blank, NormalEquations.reorder_blank]
  · cases h

end Descent

variable [LinearOrder K] [IsStrictOrderedRing K] [ExactOrder K] {settings : Settings K}
  {system : ResidualSystem K m n} {system' : ResidualSystem K m' n'} {guess guess' : List K}
  {fuel : Nat} {d : Descent K m n} {why : Termination}

/-- **Whole searches**, in another order. -/
theorem minimizeWithin_of_reorders (hsystem : system.Reorders σ τ system')
    (hguess : GuessReorders τ guess guess')
    (h : minimizeWithin fuel settings system guess = some (.ok (d, why))) :
    ∃ d', minimizeWithin fuel settings system' guess' = some (.ok (d', why)) ∧
      d.SameUpTo τ d' := by
  obtain ⟨hvalid, x, d₀, rfl, hstart, hrun⟩ := minimizeWithin_eq_ok.mp h
  have hrun' := Descent.run_reorder σ τ hsystem hvalid (.start hvalid hstart) hrun
  refine ⟨d.reorder σ τ, ?_, ⟨fun j => get_reorder τ d.point j, rfl, rfl, rfl⟩⟩
  exact minimizeWithin_eq_ok.mpr
    ⟨hvalid, _, _, hguess.toList_reorder, Descent.start_reorder σ τ hsystem hstart, hrun'⟩

end Exact

end Drafting
