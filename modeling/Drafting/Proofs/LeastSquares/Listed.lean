import Drafting.Proofs.LeastSquares.Reordered
import Drafting.Proofs.LeastSquares.Rows
import Drafting.Proofs.Program.Reordered

namespace Drafting

/-!
# Equations listed in another order

Formulas may be listed in another order, and so may the names of their variables, as long as no two
names are alike up to case.  The equations they are compiled to are then the same equations in
another order, so that searches come to the same result.

* `Equations.reorders_residualSystem` — equations as systems of residuals;
* `Equations.exists_ofFormulas_reordered` — formulas in another order;
* `Equations.exists_ofFormulas_renamed` — variables in another order;
* `minimizeWithin_listed` — searches.
-/

variable {F : Type} {n n' : Nat}

/-! ### Programs and rows -/

section Rows

variable [Scalar F] (τ : Fin n' ≃ Fin n)

/-- With the variables in another order, a program comes to the same value, and to its partials in
    the other order. -/
def Program.Reorders (p p' : Program F) : Prop :=
  ∀ (x : Vector F n) d, p.eval x.toList = .ok d → ∃ d', p'.eval (reorder τ x).toList = .ok d' ∧
    d'.value = d.value ∧ ∀ j : Fin n', d'.partials[(j : Nat)]? = d.partials[(τ j : Nat)]?

theorem Program.reorders_refl (p : Program F) : p.Reorders (.refl (Fin n)) p := by
  intro x d hd
  rw [reorder_refl]
  exact ⟨d, hd, rfl, fun _ => rfl⟩

/-- **Equations in another order** are systems of residuals in another order. -/
theorem Equations.reorders_residualSystem {s s' : Equations F}
    (σ : Fin s'.programs.length ≃ Fin s.programs.length)
    (h : ∀ i, (s.programs.get (σ i)).Reorders τ (s'.programs.get i)) :
    (s.residualSystem n).Reorders σ τ (s'.residualSystem n') := by
  intro x b l hl
  rw [residualSystem_eq_ok] at hl ⊢
  intro i
  obtain ⟨d, hd, hvalue, hpartials⟩ := hl (σ i)
  obtain ⟨d', hd', hvalue', hpartials'⟩ := h i x d hd
  refine ⟨d', hd', ?_, fun j => ?_⟩
  · rw [hvalue', ← hvalue]
    exact get_reorder σ l.residuals i
  · rw [hpartials' j, hpartials (τ j)]
    exact congrArg some (Mat.entry_reorder σ τ l.jacobian i j).symm

end Rows

/-! ### Formulas in another order -/

/-- Where a function succeeds on a list, it does so on the list in another order. -/
theorem exists_mapM_of_reordered {ε α β : Type} {f : α → Except ε β} {xs xs' : List α} {ys : List β}
    (h : xs.mapM f = .ok ys) (σ : Fin xs'.length ≃ Fin xs.length)
    (hσ : ∀ i, xs'.get i = xs.get (σ i)) :
    ∃ (ys' : List β) (σ' : Fin ys'.length ≃ Fin ys.length),
      xs'.mapM f = .ok ys' ∧ ∀ i, ys'.get i = ys.get (σ' i) := by
  obtain ⟨length, each⟩ := List.forall₂_iff_get.mp (forall₂_of_mapM_eq_ok h)
  let place : Fin xs'.length ≃ Fin ys.length := σ.trans (finCongr length)
  have results : List.Forall₂ (fun x y => f x = .ok y) xs' (List.ofFn (ys.get ∘ place)) := by
    refine List.forall₂_iff_get.mpr ⟨by simp, fun i hi _ => ?_⟩
    have result := each (σ ⟨i, hi⟩) (σ ⟨i, hi⟩).isLt (length ▸ (σ ⟨i, hi⟩).isLt)
    rw [← hσ ⟨i, hi⟩] at result
    simpa [place] using result
  exact ⟨_, (finCongr List.length_ofFn).trans place, mapM_eq_ok_of_forall₂ results,
    List.get_ofFn (ys.get ∘ place)⟩

/-- Formulas in another order compile to the same programs in that order. -/
theorem Equations.exists_ofFormulas_reordered {names : List String} {es es' : List (Formula F)}
    {s : Equations F} (h : ofFormulas names es = .ok s) (σ : Fin es'.length ≃ Fin es.length)
    (hσ : ∀ i, es'.get i = es.get (σ i)) :
    ∃ (s' : Equations F) (σ' : Fin s'.programs.length ≃ Fin s.programs.length),
      ofFormulas names es' = .ok s' ∧ ∀ i, s'.programs.get i = s.programs.get (σ' i) := by
  obtain ⟨ps, hps, h⟩ := bind_eq_ok.mp h
  obtain rfl := Except.ok.inj h
  obtain ⟨ps', σ', hps', hσ'⟩ := exists_mapM_of_reordered hps σ hσ
  exact ⟨⟨names, ps'⟩, σ', bind_eq_ok.mpr ⟨ps', hps', rfl⟩, hσ'⟩

/-! ### Variables in another order -/

section Names

variable {names names' : List String}

/-- Where no two names are alike, a name stands for the variable that has it. -/
theorem findIdx?_eq_some_iff (distinct : Function.Injective fun i => Text.lowercase (names.get i))
    (key : String) (i : Fin names.length) :
    names.findIdx? (Text.lowercase · == key) = some (i : Nat) ↔
      Text.lowercase (names.get i) = key := by
  rw [List.findIdx?_eq_some_iff_getElem]
  constructor
  · rintro ⟨hi, hkey, -⟩
    simpa using hkey
  · rintro rfl
    refine ⟨i.isLt, by simp, fun k hk => ?_⟩
    -- an earlier variable has another name
    have hne : (⟨k, hk.trans i.isLt⟩ : Fin names.length) ≠ i := Fin.ne_of_lt hk
    simpa using fun alike => hne (distinct alike)

variable (τ : Fin names'.length ≃ Fin names.length) (hτ : ∀ j, names'.get j = names.get (τ j))
  (distinct : Function.Injective fun i => Text.lowercase (names.get i))
include hτ distinct

/-- A name stands for the same variable in both lists, or for none. -/
theorem findIdx?_reordered (key : String) :
    names.findIdx? (Text.lowercase · == key) = none ∧
        names'.findIdx? (Text.lowercase · == key) = none ∨
      ∃ j : Fin names'.length, names.findIdx? (Text.lowercase · == key) = some (τ j : Nat) ∧
        names'.findIdx? (Text.lowercase · == key) = some (j : Nat) := by
  have distinct' : Function.Injective fun j => Text.lowercase (names'.get j) := by
    simp only [hτ]
    exact distinct.comp τ.injective
  -- names that are apart in lower case are found where they stand, in either list
  have same (j : Fin names'.length) :
      names'.findIdx? (Text.lowercase · == key) = some (j : Nat) ↔
        names.findIdx? (Text.lowercase · == key) = some (τ j : Nat) := by
    rw [findIdx?_eq_some_iff distinct', findIdx?_eq_some_iff distinct, hτ]
  cases hi : names.findIdx? (Text.lowercase · == key) with
  | some i =>
    let place : Fin names.length := ⟨i, lt_of_findIdx? hi⟩
    have there := (same (τ.symm place)).mpr (by rw [hi, τ.apply_symm_apply])
    exact .inr ⟨τ.symm place, by rw [τ.apply_symm_apply], there⟩
  | none =>
    cases hj : names'.findIdx? (Text.lowercase · == key) with
    | none => exact .inl ⟨rfl, rfl⟩
    | some j =>
      have here := (same ⟨j, lt_of_findIdx? hj⟩).mp hj
      rw [hi] at here
      cases here

/-- A place in one list and the place it is sent to stand for the same name. -/
theorem shared_reordered (j : Fin names'.length) : Shared names names' (τ j) j := by
  refine ⟨Text.lowercase (names.get (τ j)), (findIdx?_eq_some_iff distinct _ _).mpr rfl, ?_⟩
  rcases findIdx?_reordered τ hτ distinct (Text.lowercase (names.get (τ j))) with
    ⟨missing, -⟩ | ⟨k, found, found'⟩
  · rw [(findIdx?_eq_some_iff distinct _ (τ j)).mpr rfl] at missing
    cases missing
  · rw [(findIdx?_eq_some_iff distinct _ (τ j)).mpr rfl] at found
    obtain rfl := τ.injective (Fin.ext (Option.some.inj found))
    exact found'

/-- Formulas know the same names. -/
theorem isSome_index?_reordered (name : String) :
    ((Scope.ofNames names).index? name).isSome = ((Scope.ofNames names').index? name).isSome := by
  rw [Scope.index?_ofNames, Scope.index?_ofNames]
  rcases findIdx?_reordered τ hτ distinct name with ⟨hi, hj⟩ | ⟨j, hi, hj⟩ <;> rw [hi, hj]
  rfl

variable [Scalar F] {e : Formula F} {p p' : Program F}

/-- **Programs** of a formula for variables in another order. -/
theorem Scope.reorders_of_compile (hp : (ofNames names).compile e = .ok p)
    (hp' : (ofNames names').compile e = .ok p') : p.Reorders τ p' := by
  intro x d hd
  have paired : e.NamesPaired (Dual.SameAlong names names') names names' x.toList
      (reorder τ x).toList := by
    intro name _
    rcases findIdx?_reordered τ hτ distinct name with ⟨hi, hj⟩ | ⟨j, hi, hj⟩
    · simp only [Formula.interpret, hi, hj]
      exact .error _
    · simp only [Formula.interpret, hi, hj, getElem?_toList, get_reorder]
      rw [x.length_toList, (reorder τ x).length_toList]
      exact .ok (.dual (Dual.sameAlong_seed (shared_reordered τ hτ distinct j) _))
  have agree := eval_paired (Dual.congruence_sameAlong names names') hp hp' x.length_toList
    (reorder τ x).length_toList paired
  rw [hd] at agree
  obtain ⟨d', hd', same⟩ := AgreeUpTo.ok_left.mp agree
  exact ⟨d', hd', same.value.symm,
    fun j => (same.slope (τ j) j (shared_reordered τ hτ distinct j)).symm⟩

/-- What compiles for a list of variables compiles for the list in another order. -/
theorem Scope.exists_compile_reordered (hp : (ofNames names).compile e = .ok p) :
    ∃ p', (ofNames names').compile e = .ok p' ∧ p.Reorders τ p' := by
  have agree := compile_agree (e := e) fun name _ => isSome_index?_reordered τ hτ distinct name
  rw [hp] at agree
  obtain ⟨p', hp', -⟩ := AgreeUpTo.ok_left.mp agree
  exact ⟨p', hp', reorders_of_compile τ hτ distinct hp hp'⟩

/-- **Variables in another order.**  The formulas are compiled to programs that differ in the order
    alone. -/
theorem Equations.exists_ofFormulas_renamed {es : List (Formula F)} {s : Equations F}
    (h : ofFormulas names es = .ok s) :
    ∃ (s' : Equations F) (σ : Fin s'.programs.length ≃ Fin s.programs.length),
      ofFormulas names' es = .ok s' ∧
        ∀ i, (s.programs.get (σ i)).Reorders τ (s'.programs.get i) := by
  obtain ⟨ps, hps, h⟩ := bind_eq_ok.mp h
  obtain rfl := Except.ok.inj h
  obtain ⟨ps', hps', reordered⟩ := exists_mapM_eq_ok (R := Eq) (T := fun p' p => p.Reorders τ p')
    (List.forall₂_refl es) (forall₂_of_mapM_eq_ok hps)
    fun _ _ _ he hp => Scope.exists_compile_reordered τ hτ distinct (he ▸ hp)
  obtain ⟨length, each⟩ := List.forall₂_iff_get.mp reordered
  exact ⟨⟨names', ps'⟩, finCongr length, bind_eq_ok.mpr ⟨ps', hps', rfl⟩,
    fun i => each i i.isLt (length ▸ i.isLt)⟩

end Names

/-! ### Searches -/

/-- **The order of the list does not matter** to a search with a result.  With the equations in
    another order, it comes to the same point, error, number of steps, damping and reason to end;
    with the variables in another order, and the guess with them, to the point in that order, and to
    the same for the rest.  This holds for every system of residuals, and so for equations whose
    formulas are listed in another order, and for those whose variables are, as long as no two of
    these have names that are alike. -/
theorem minimizeWithin_listed (K : Type) [ExactScalar K] [LinearOrder K] [IsStrictOrderedRing K]
    [ExactOrder K] (fuel : Nat) (settings : Settings K) (guess : List K) (why : Termination) :
    (∀ m n (system : ResidualSystem K m n) d,
      minimizeWithin fuel settings system guess = some (.ok (d, why)) →
      (∀ σ : Equiv.Perm (Fin m), ∃ d',
        minimizeWithin fuel settings (system.reorder σ (.refl (Fin n))) guess =
          some (.ok (d', why)) ∧ d.SameUpTo (.refl (Fin n)) d') ∧
      ∀ (τ : Equiv.Perm (Fin n)) guess', GuessReorders τ guess guess' → ∃ d',
        minimizeWithin fuel settings (system.reorder (.refl (Fin m)) τ) guess' =
          some (.ok (d', why)) ∧ d.SameUpTo τ d') ∧
    ∀ names es s d, Equations.ofFormulas names es = .ok s →
      minimizeWithin fuel settings (s.residualSystem names.length) guess = some (.ok (d, why)) →
      (∀ es' (σ : Fin es'.length ≃ Fin es.length), (∀ i, es'.get i = es.get (σ i)) →
        ∃ s' d', Equations.ofFormulas names es' = .ok s' ∧
          minimizeWithin fuel settings (s'.residualSystem names.length) guess =
            some (.ok (d', why)) ∧ d.SameUpTo (.refl (Fin names.length)) d') ∧
      ∀ names' (τ : Fin names'.length ≃ Fin names.length) guess',
        (Function.Injective fun j => Text.lowercase (names.get j)) →
        (∀ j, names'.get j = names.get (τ j)) → GuessReorders τ guess guess' →
        ∃ s' d', Equations.ofFormulas names' es = .ok s' ∧
          minimizeWithin fuel settings (s'.residualSystem names'.length) guess' =
            some (.ok (d', why)) ∧ d.SameUpTo τ d' := by
  have unmoved {m n : Nat} {system : ResidualSystem K m n} {d : Descent K m n}
      (h : minimizeWithin fuel settings system guess = some (.ok (d, why))) :
      GuessReorders (.refl (Fin n)) guess guess := by
    obtain ⟨-, x, -, rfl, -⟩ := minimizeWithin_eq_ok.mp h
    exact ⟨x.length_toList, fun _ => rfl⟩
  refine ⟨fun m n system d h => ⟨fun σ => ?_, fun τ guess' hguess => ?_⟩,
    fun names es s d hs h => ⟨fun es' σ hσ => ?_, fun names' τ guess' distinct hτ hguess => ?_⟩⟩
  · -- the residuals of a system in another order
    exact minimizeWithin_of_reorders σ _ (system.reorders_reorder σ _) (unmoved h) h
  · -- its variables in another order
    exact minimizeWithin_of_reorders _ τ (system.reorders_reorder _ τ) hguess h
  · -- formulas listed in another order are compiled to the same programs
    obtain ⟨s', σ', hs', hσ'⟩ := Equations.exists_ofFormulas_reordered hs σ hσ
    have alike := Equations.reorders_residualSystem (.refl (Fin names.length)) σ' fun i =>
      hσ' i ▸ Program.reorders_refl (s'.programs.get i)
    obtain ⟨d', hd'⟩ := minimizeWithin_of_reorders σ' _ alike (unmoved h) h
    exact ⟨s', d', hs', hd'⟩
  · -- names listed in another order renumber the loads of the programs
    obtain ⟨s', σ', hs', reordered⟩ := Equations.exists_ofFormulas_renamed τ hτ distinct hs
    have alike := Equations.reorders_residualSystem τ σ' reordered
    obtain ⟨d', hd'⟩ := minimizeWithin_of_reorders σ' τ alike hguess h
    exact ⟨s', d', hs', hd'⟩

/-- The formulas `x - 1` and `x + y`. -/
def onLines : List (Formula ℝ) :=
  [.binary .sub (.symbol "x") (.number 1), .binary .add (.symbol "x") (.symbol "y")]

/-- The two formulas compiled for `x` and `y`. -/
def onLinesCompiled : Equations ℝ where
  names := ["x", "y"]
  programs := [⟨[.load 0, .constant 1, .binary .sub], 2⟩, ⟨[.load 0, .load 1, .binary .add], 2⟩]

/-- The equations of the two lines can be evaluated everywhere. -/
theorem exists_residualSystem_onLinesCompiled (x : Vector ℝ 2)
    (b : Linearization ℝ onLinesCompiled.programs.length 2) :
    ∃ l, onLinesCompiled.residualSystem 2 x b = .ok l := by
  refine onLinesCompiled.exists_foldlM_write (fun i => ?_) _ b
  obtain ⟨first, second, entries⟩ : ∃ y z, x.toList = [y, z] := by
    rw [← List.length_eq_two, x.length_toList]
  rw [entries]
  revert i
  exact Fin.forall_fin_two.mpr ⟨⟨_, rfl⟩, ⟨_, rfl⟩⟩

/-- Settings for a single step. -/
noncomputable def oneStep : Settings ℝ := { Settings.default with maxSteps := some 1 }

/-- The equations and the variables exchanged, in the system and in the lists. -/
theorem minimizeWithin_listed_onLines :
    Equations.ofFormulas ["x", "y"] onLines = .ok onLinesCompiled ∧
    ∃ d why,
      minimizeWithin oneStep.fuel oneStep (onLinesCompiled.residualSystem 2) [3, 0] =
        some (.ok (d, why)) ∧
      (∃ d', minimizeWithin oneStep.fuel oneStep
          ((onLinesCompiled.residualSystem 2).reorder (Equiv.swap 0 1 : Equiv.Perm (Fin 2))
            (.refl (Fin 2))) [3, 0] = some (.ok (d', why)) ∧ d.SameUpTo (.refl (Fin 2)) d') ∧
      (∃ d', minimizeWithin oneStep.fuel oneStep
          ((onLinesCompiled.residualSystem 2).reorder (.refl (Fin 2)) (Equiv.swap 0 1)) [0, 3] =
            some (.ok (d', why)) ∧ d.SameUpTo (Equiv.swap 0 1) d') ∧
      (∃ s' d', Equations.ofFormulas ["x", "y"] onLines.reverse = .ok s' ∧
        minimizeWithin oneStep.fuel oneStep (s'.residualSystem 2) [3, 0] = some (.ok (d', why)) ∧
        d.SameUpTo (.refl (Fin 2)) d') ∧
      ∃ s' d', Equations.ofFormulas ["y", "x"] onLines = .ok s' ∧
        minimizeWithin oneStep.fuel oneStep (s'.residualSystem 2) [0, 3] = some (.ok (d', why)) ∧
        d.SameUpTo (Equiv.swap 0 1) d' := by
  have compiled : Equations.ofFormulas ["x", "y"] onLines = .ok onLinesCompiled := rfl
  have valid : oneStep.validate = .ok () := Settings.validate_default (by simp)
  -- a limit ends the search, and its damped steps meet no error
  obtain ⟨d, why, found⟩ : ∃ d why, minimizeWithin oneStep.fuel oneStep
      (onLinesCompiled.residualSystem 2) [3, 0] = some (.ok (d, why)) := by
    have ends : minimize oneStep (onLinesCompiled.residualSystem 2) [3, 0] ≠ none :=
      minimize_ne_none rfl _ _
    have unfailing : ∀ e, minimizeWithin oneStep.fuel oneStep (onLinesCompiled.residualSystem 2)
        [3, 0] ≠ some (.error e) :=
      minimizeWithin_ne_error exists_residualSystem_onLinesCompiled valid rfl oneStep.fuel
    obtain ⟨result, hresult⟩ := Option.ne_none_iff_exists'.mp ends
    cases result with
    | error e => exact absurd hresult (unfailing e)
    | ok found => exact ⟨found.1, found.2, hresult⟩
  obtain ⟨systems, lists⟩ := minimizeWithin_listed ℝ oneStep.fuel oneStep [3, 0] why
  obtain ⟨rows, columns⟩ := systems _ 2 (onLinesCompiled.residualSystem 2) d found
  obtain ⟨formulas, names⟩ := lists ["x", "y"] onLines onLinesCompiled d compiled found
  have exchanged : GuessReorders (Equiv.swap 0 1 : Equiv.Perm (Fin 2)) ([3, 0] : List ℝ) [0, 3] :=
    ⟨rfl, Fin.forall_fin_two.mpr ⟨rfl, rfl⟩⟩
  refine ⟨compiled, d, why, found, rows _, columns _ [0, 3] exchanged, ?_, ?_⟩
  · exact formulas onLines.reverse (Equiv.swap 0 1 : Equiv.Perm (Fin 2))
      (Fin.forall_fin_two.mpr ⟨rfl, rfl⟩)
  · exact names ["y", "x"] (Equiv.swap 0 1 : Equiv.Perm (Fin 2)) [0, 3] (by decide)
      (Fin.forall_fin_two.mpr ⟨rfl, rfl⟩) exchanged

end Drafting
