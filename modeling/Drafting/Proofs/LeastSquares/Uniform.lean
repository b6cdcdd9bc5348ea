import Drafting.Proofs.LeastSquares.Termination
import Drafting.Proofs.Program.Paired

namespace Drafting

/-!
# Whether there is a value does not depend on the point

A plain number in a formula comes from numbers alone, so it is the same at every point, and what is
a dual at one point is a dual at all of them.  A power that fails at one point therefore fails at
every other one, in the same way.  So a search that could work out its equations at the start can do
so in all of its steps.

* `Scope.uniform_of_compile` — programs have values everywhere or nowhere;
* `Equations.uniform_residualSystem` — so do systems of equations;
* `Descent.step_ne_formula`, `Descent.run_ne_formula` — one step of a search, and all of them;
* `eval_uniform` — programs and searches.
-/

variable {F : Type} [Scalar F]

/-! ### Programs -/

/-- The rules of differentiation keep the number of partials, whatever the values are. -/
theorem Dual.congruence_length (n n' : Nat) :
    Congruence (F := F) n n' fun d d' => d.partials.length = n ∧ d'.partials.length = n' where
  width := id
  constant x := ⟨length_constant x n, length_constant x n'⟩
  scale f df h := by simpa [scale] using h
  zip f df ha hb := by simp [zip, ha, hb]
  revalue f h := h

/-- Whether the program has a value does not depend on the point, nor does the reason why not. -/
def Program.Uniform (p : Program F) : Prop :=
  ∀ values values', values.length = p.variableCount → values'.length = p.variableCount →
    AgreeUpTo (fun _ _ => True) (p.eval values) (p.eval values')

/-- **Programs have values everywhere or nowhere.** -/
theorem Scope.uniform_of_compile {names : List String} {e : Formula F} {p : Program F}
    (hp : (ofNames names).compile e = .ok p) : p.Uniform := by
  intro values values' hvalues hvalues'
  have count := variableCount_of_compile hp
  have hlen := hvalues.trans count
  have hlen' := hvalues'.trans count
  refine (eval_paired (Dual.congruence_length _ _) hp hp hlen hlen' fun name _ => ?_).imp
    fun _ _ _ => trivial
  -- a name stands for the same variable at both points
  simp only [Formula.interpret]
  cases hi : names.findIdx? (Text.lowercase · == name) with
  | none => exact .error _
  | some i =>
    have bound : i < names.length := (List.findIdx?_eq_some_iff_getElem.mp hi).1
    simp only [List.getElem?_eq_getElem (hlen.symm ▸ bound : i < values.length),
      List.getElem?_eq_getElem (hlen'.symm ▸ bound : i < values'.length)]
    exact .ok (.dual ⟨by simp [hlen], by simp [hlen']⟩)

/-! ### Systems -/

variable {m n : Nat}

/-- Whether the system has a linearization does not depend on the point or on the buffer, nor does
    the reason why not. -/
def ResidualSystem.Uniform (system : ResidualSystem F m n) : Prop :=
  ∀ x y b b', AgreeUpTo (fun _ _ => True) (system x b) (system y b')

omit [Scalar F] in
/-- A uniform system that has a linearization somewhere has one everywhere. -/
theorem ResidualSystem.Uniform.exists_ok {system : ResidualSystem F m n} {x : Vector F n}
    {b l : Linearization F m n} (h : system.Uniform) (hl : system x b = .ok l) (y : Vector F n)
    (b' : Linearization F m n) : ∃ l', system y b' = .ok l' := by
  obtain ⟨l', hl', -⟩ := AgreeUpTo.ok_left.mp (hl ▸ h x y b b')
  exact ⟨l', hl'⟩

/-- **Systems of equations have linearizations everywhere or nowhere.** -/
theorem Equations.uniform_residualSystem {s : Equations F}
    (h : ∀ p ∈ s.programs, p.Uniform ∧ p.variableCount = n) : (s.residualSystem n).Uniform := by
  intro x y b b'
  refine AgreeUpTo.foldlM (fun i _ l l' _ => ?_) trivial
  obtain ⟨uniform, count⟩ := h _ (List.get_mem s.programs i)
  have row := uniform x.toList y.toList (x.length_toList.trans count.symm)
    (y.length_toList.trans count.symm)
  exact row.bind fun _ _ _ => .ok trivial

/-- What is compiled from formulas is uniform. -/
theorem Equations.uniform_of_ofFormulas {names : List String} {es : List (Formula F)}
    {s : Equations F} (h : ofFormulas names es = .ok s) :
    (s.residualSystem names.length).Uniform := by
  obtain ⟨programs, hprograms, hs⟩ := bind_eq_ok.mp h
  obtain rfl := Except.ok.inj hs
  refine uniform_residualSystem fun p hp => ?_
  obtain ⟨e, -, he⟩ := exists_of_mem_mapM hprograms hp
  exact ⟨Scope.uniform_of_compile he, Scope.variableCount_of_compile he⟩

/-! ### Searches -/

namespace Descent

variable {settings : Settings F} {system : ResidualSystem F m n}

/-- **One step** of a search does not fail for its equations, if these have a linearization
    everywhere. -/
theorem step_ne_formula (hsystem : ∀ x b, ∃ l, system x b = .ok l) (d : Descent F m n)
    (fault : FormulaError F) : d.step settings system ≠ .error (.formula fault) := by
  intro h
  unfold step at h
  split at h
  · cases h
  unfold attempt at h
  dsimp only at h
  split at h
  · rcases bind_eq_error.mp h with h | ⟨l, -, h⟩
    · -- the trial has a linearization
      obtain ⟨error, herror, -⟩ := mapError_eq_error.mp h
      obtain ⟨l, hl⟩ := hsystem _ _
      rw [hl] at herror
      cases herror
    · cases h
  · cases h

/-- **All steps.** -/
theorem run_ne_formula (hsystem : ∀ x b, ∃ l, system x b = .ok l) (d : Descent F m n)
    (fault : FormulaError F) (fuel : Nat) :
    d.run settings system fuel ≠ some (.error (.formula fault)) := by
  induction fuel generalizing d with
  | zero => nofun
  | succ fuel ih =>
    intro h
    rw [run] at h
    cases hstep : d.step settings system with
    | error e =>
      rw [hstep] at h
      cases h
      exact step_ne_formula hsystem d fault hstep
    | ok p =>
      rw [hstep] at h
      cases p with
      | goesOn d' => exact ih d' h
      | ended d' why => cases h

/-- A search starts unless the first linearization fails, or the error there is not finite. -/
theorem start_eq_formula {x : Vector F n} {fault : FormulaError F} :
    start settings system x = .error (.formula fault) ↔
      ∃ error, fault = .evaluating error ∧ system x .blank = .error error := by
  unfold start
  rw [bind_eq_error]
  constructor
  · rintro (h | ⟨l, -, h⟩)
    · obtain ⟨error, herror, hfault⟩ := mapError_eq_error.mp h
      cases hfault
      exact ⟨error, rfl, herror⟩
    · dsimp only at h
      split at h <;> cases h
  · rintro ⟨error, rfl, herror⟩
    exact .inl (mapError_eq_error.mpr ⟨error, herror, rfl⟩)

end Descent

/-- **Whole searches** fail for their equations only at the start, if these have a linearization
    everywhere or nowhere. -/
theorem minimizeWithin_eq_formula {settings : Settings F} {system : ResidualSystem F m n}
    {x : Vector F n} {fuel : Nat} {fault : FormulaError F} (huniform : system.Uniform) :
    minimizeWithin fuel settings system x.toList = some (.error (.formula fault)) ↔
      settings.validate = .ok () ∧
        ∃ error, fault = .evaluating error ∧ system x .blank = .error error := by
  have started : Descent.start settings system x = .error (.formula fault) ↔ _ :=
    Descent.start_eq_formula
  rw [← started]
  unfold minimizeWithin
  rw [ofListExact?_eq_some.mpr rfl]
  cases settings.validate with
  | error fault' => simp
  | ok _ =>
    dsimp only
    cases hstart : Descent.start settings system x with
    | error e => simp
    | ok d =>
      obtain ⟨l, hl, -⟩ := bind_eq_ok.mp hstart
      have everywhere := huniform.exists_ok (ResidualSystem.linearizeAt_eq_ok.mp hl)
      simp [Descent.run_ne_formula everywhere d fault fuel]

/-- **Whether there is a value does not depend on the point.**  A compiled program has values at all
    points, or fails at all of them with the same error.  So a search for solutions of compiled
    equations fails for one of them iff the first linearization fails; no step that it comes to
    does. -/
theorem eval_uniform (names : List String) :
    (∀ (e : Formula F) p, (Scope.ofNames names).compile e = .ok p →
      ∀ values values', values.length = p.variableCount → values'.length = p.variableCount →
        (∃ d d', p.eval values = .ok d ∧ p.eval values' = .ok d') ∨
        ∃ error, p.eval values = .error error ∧ p.eval values' = .error error) ∧
    ∀ (es : List (Formula F)) s, Equations.ofFormulas names es = .ok s →
      ∀ settings (x : Vector F names.length),
        (∀ fuel fault,
          minimizeWithin fuel settings (s.residualSystem names.length) x.toList =
              some (.error (.formula fault)) ↔
            settings.validate = .ok () ∧ ∃ error, fault = .evaluating error ∧
              s.residualSystem names.length x .blank = .error error) ∧
        ∀ d, Descent.Reachable settings (s.residualSystem names.length) x.toList d →
          ∀ fault, d.step settings (s.residualSystem names.length) ≠ .error (.formula fault) := by
  refine ⟨fun e p hp values values' hlen hlen' => ?_, fun es s hs settings x => ?_⟩
  · have agree := Scope.uniform_of_compile hp values values' hlen hlen'
    generalize p.eval values = result, p.eval values' = result' at agree ⊢
    cases agree with
    | ok => exact .inl ⟨_, _, rfl, rfl⟩
    | error error => exact .inr ⟨error, rfl, rfl⟩
  -- a search evaluates at its start, and has gone on from there only if this gave values
  have uniform := Equations.uniform_of_ofFormulas hs
  refine ⟨fun fuel fault => minimizeWithin_eq_formula uniform, ?_⟩
  rintro d ⟨y, d₀, -, hstart, -⟩ fault
  obtain ⟨l, hl, -⟩ := bind_eq_ok.mp hstart
  exact d.step_ne_formula (uniform.exists_ok (ResidualSystem.linearizeAt_eq_ok.mp hl)) fault

/-- The formula `sqrt(x) ^ 0.5`. -/
def rootOfRoot : Formula Float := .binary .pow (.call "sqrt" [.symbol "x"]) (.number 0.5)

/-- A power with a fractional exponent fails wherever its base depends on a variable, be the base a
    number or not; and a search fails at its start. -/
theorem eval_uniform_rootOfRoot :
    let p : Program Float := ⟨[.load 0, .call .sqrt, .constant 0.5, .binary .pow], 1⟩
    (Scope.ofNames ["x"]).compile rootOfRoot = .ok p ∧
      (∃ error, p.eval [4] = .error error ∧ p.eval [-4] = .error error) ∧
      Equations.ofFormulas ["x"] [.symbol "x", rootOfRoot] =
        .ok ⟨["x"], [⟨[.load 0], 1⟩, p]⟩ ∧
      ∃ error, minimizeWithin 20 .default
        ((⟨["x"], [⟨[.load 0], 1⟩, p]⟩ : Equations Float).residualSystem 1) [4] =
          some (.error (.formula (.evaluating error))) := by
  intro p
  have hp : (Scope.ofNames ["x"]).compile rootOfRoot = .ok p := rfl
  have hs : Equations.ofFormulas ["x"] [.symbol "x", rootOfRoot] =
      .ok ⟨["x"], [⟨[.load 0], 1⟩, p]⟩ := rfl
  have fails : p.eval [-4] = .error (.power (.fractionalExponent 0.5)) := by rfl
  obtain ⟨points, searches⟩ := eval_uniform (F := Float) ["x"]
  refine ⟨hp, ?_, hs, .power (.fractionalExponent 0.5), ?_⟩
  · rcases points rootOfRoot p hp [4] [-4] rfl rfl with ⟨d, d', -, hd'⟩ | h
    · rw [fails] at hd'
      cases hd'
    · exact h
  · refine ((searches _ _ hs .default #v[4]).1 20 _).mpr ⟨by decide +kernel, _, rfl, ?_⟩
    rfl

end Drafting
