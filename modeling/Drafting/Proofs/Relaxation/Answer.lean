import Drafting.Binary64
import Drafting.Proofs.Relaxation.Flags
import Drafting.Proofs.Result
import Drafting.Relaxation.Solve

namespace Drafting

/-!
# What is answered to a list of equations

Equations are refused for their settings, or for the first of them that cannot be read or compiled.
Nothing else is refused: whatever a search comes to, relaxation goes on, and there is a flag for
each equation in the end.

* `SolveOptions.exists_answer` — equations that have been compiled are always answered;
* `solveEquations_eq_ok_iff`, `solveEquations_eq_error_iff` — the two ways out;
* `validate_settings` — what is asked of options;
* `Faulty` — what can be wrong with an equation;
* `Refused` — the reasons for which equations are refused, each with what is reported;
* `solveEquations_refuses` — equations are refused for these reasons only.
-/

variable {F : Type} [Scalar F] {equations : List String} {assignment : Keyed F}
  {o : SolveOptions F} {solution : Solution F} {programs : List (Program F)}

/-! ### The two ways out -/

/-- What is answered to equations that have been compiled. -/
def SolveOptions.answer (o : SolveOptions F) (assignment : Keyed F) (programs : List (Program F)) :
    Except (SolveError F) (Solution F) :=
  if programs.isEmpty then .ok ⟨[], assignment⟩
  else
    (relax (o.minimizer assignment.keys) o.isMet programs assignment.values).map fun result =>
      ⟨result.1, o.forwardSubs.writeBack (Keyed.ofList (assignment.keys.zip result.2))⟩

/-- **Compiled equations are always answered.** -/
theorem SolveOptions.exists_answer (o : SolveOptions F) (assignment : Keyed F)
    (programs : List (Program F)) : ∃ solution, o.answer assignment programs = .ok solution := by
  unfold answer
  split
  · exact ⟨_, rfl⟩
  · obtain ⟨flags, values, h⟩ :=
      exists_relax (o.minimizer assignment.keys) o.isMet programs assignment.values
    exact ⟨_, congrArg (Except.map _) h⟩

/-- The answer to equations is that of relaxation, with names written back. -/
theorem SolveOptions.answer_eq_ok_iff (h : programs ≠ []) :
    o.answer assignment programs = .ok solution ↔
      ∃ flags values, (relax (o.minimizer assignment.keys) o.isMet programs assignment.values :
        Except (SolveError F) _) = .ok (flags, values) ∧
        ⟨flags, o.forwardSubs.writeBack (Keyed.ofList (assignment.keys.zip values))⟩ =
          solution := by
  rw [answer, if_neg (by simpa using h), map_eq_ok, Prod.exists]

/-- Options are looked at first, then the equations are compiled, and then they are answered. -/
theorem solveEquations_eq (equations : List String) (assignment : Keyed F) (o : SolveOptions F) :
    solveEquations equations assignment o = (do
      o.settings.validate.mapError .settings
      let programs ← (equations.mapM
        (compileEquation o.forwardSubs (.ofNames assignment.keys))).mapError .formula
      o.answer assignment programs) := by
  unfold solveEquations SolveOptions.answer
  refine bind_congr fun _ => bind_congr fun programs => ?_
  split
  · rfl
  · cases (relax (o.minimizer assignment.keys) o.isMet programs assignment.values :
      Except (SolveError F) _) <;> rfl

/-- There is a solution iff the options are fine and all equations can be compiled; it is the
    answer to the programs. -/
theorem solveEquations_eq_ok_iff :
    solveEquations equations assignment o = .ok solution ↔
      o.settings.validate = .ok () ∧ ∃ programs,
        equations.mapM (compileEquation o.forwardSubs (.ofNames assignment.keys)) = .ok programs ∧
        o.answer assignment programs = .ok solution := by
  rw [solveEquations_eq]
  simp only [bind_eq_ok, mapError_eq_ok]
  exact ⟨fun ⟨(), h⟩ => h, fun h => ⟨(), h⟩⟩

/-- There is an error iff the options are faulty, or one of the equations is. -/
theorem solveEquations_eq_error_iff {error : SolveError F} :
    solveEquations equations assignment o = .error error ↔
      (∃ fault, o.settings.validate = .error fault ∧ .settings fault = error) ∨
      o.settings.validate = .ok () ∧ ∃ fault,
        equations.mapM (compileEquation o.forwardSubs (.ofNames assignment.keys)) = .error fault ∧
        .formula fault = error := by
  have answered (programs : List (Program F)) : o.answer assignment programs ≠ .error error := by
    obtain ⟨solution, h⟩ := o.exists_answer assignment programs
    rw [h]
    exact nofun
  rw [solveEquations_eq]
  simp only [bind_eq_error, mapError_eq_ok, mapError_eq_error, answered, and_false, exists_false,
    or_false]
  exact or_congr_right ⟨fun ⟨(), h⟩ => h, fun h => ⟨(), h⟩⟩

/-- There is a flag for each equation. -/
theorem SolveOptions.length_answer (h : o.answer assignment programs = .ok solution) :
    solution.satisfied.length = programs.length := by
  by_cases hne : programs = []
  · subst hne
    cases h
    rfl
  · obtain ⟨flags, values, hrelax, rfl⟩ := (answer_eq_ok_iff hne).mp h
    exact length_of_relax hrelax

/-! ### Reasons to refuse -/

/-- Options are faulty only in what they set themselves; defaults are fine. -/
theorem validate_settings (o : SolveOptions Float) :
    o.settings.validate =
      if ¬ 0 < o.epsilon then .error .epsilon
      else if o.maxSteps = some 0 then .error .maxSteps
      else .ok () := by
  have damping : Scalar.less Scalar.zero (Settings.default : Settings Float).initialDamping := by
    decide +kernel
  have raise : Scalar.less Scalar.one (Settings.default : Settings Float).raise := by
    decide +kernel
  have lower : Scalar.less Scalar.one (Settings.default : Settings Float).lower := by
    decide +kernel
  have zero : (Scalar.zero : Float) = 0 := by decide +kernel
  have positive : Scalar.less Scalar.zero o.epsilon = decide (0 < o.epsilon) := by
    rw [← zero]; rfl
  simp only [Settings.validate, SolveOptions.settings, damping, raise, lower, positive,
    Bool.not_true, Bool.or_self, Bool.false_eq_true, if_false]
  by_cases hε : 0 < o.epsilon <;> by_cases hsteps : o.maxSteps = some 0 <;> simp [hε, hsteps]

/-- What is compiled is the formula of a text with names replaced. -/
theorem compileEquation_eq_ok_iff {subs : Substitutions F} {scope : Scope} {text : String}
    {p : Program F} :
    compileEquation subs scope text = .ok p ↔
      ∃ e, Formula.ofText text = .ok e ∧ scope.compile (subs.substitute e) = .ok p := by
  simp only [compileEquation, bind_eq_ok, mapError_eq_ok]

/-- What can be wrong with the text of an equation: that it cannot be read, or that what was read
    cannot be compiled after names were replaced. -/
inductive Faulty (subs : Substitutions F) (scope : Scope) (text : String) : FormulaError F → Prop
  | reading {fault : SyntaxError F} (hread : Formula.ofText text = .error fault) :
      Faulty subs scope text (.reading fault)
  | compiling {e : Formula F} {fault : CompileError} (hread : Formula.ofText text = .ok e)
      (hcompile : scope.compile (subs.substitute e) = .error fault) :
      Faulty subs scope text (.compiling fault)

/-- An equation cannot be compiled iff it is faulty, and the fault is what is reported. -/
theorem compileEquation_eq_error_iff {subs : Substitutions F} {scope : Scope} {text : String}
    {fault : FormulaError F} :
    compileEquation subs scope text = .error fault ↔ Faulty subs scope text fault := by
  simp only [compileEquation, bind_eq_error, mapError_eq_ok, mapError_eq_error]
  constructor
  · rintro (⟨fault, hread, rfl⟩ | ⟨e, hread, fault, hcompile, rfl⟩)
    · exact .reading hread
    · exact .compiling hread hcompile
  · rintro (hread | ⟨hread, hcompile⟩)
    · exact .inl ⟨_, hread, rfl⟩
    · exact .inr ⟨_, hread, _, hcompile, rfl⟩

/-- Why equations are refused, and what is reported.  The settings come first, then the equations
    in their order. -/
inductive Refused (equations : List String) (names : List String) (o : SolveOptions Float) :
    SolveError Float → Prop
  | epsilon (hε : ¬ 0 < o.epsilon) : Refused equations names o (.settings .epsilon)
  | maxSteps (hε : 0 < o.epsilon) (hsteps : o.maxSteps = some 0) :
      Refused equations names o (.settings .maxSteps)
  | equation {before after : List String} {text : String} {fault : FormulaError Float}
      (hε : 0 < o.epsilon) (hsteps : o.maxSteps ≠ some 0)
      (split : equations = before ++ text :: after)
      (fine : ∀ text ∈ before, ∀ fault, ¬ Faulty o.forwardSubs (.ofNames names) text fault)
      (faulty : Faulty o.forwardSubs (.ofNames names) text fault) :
      Refused equations names o (.formula fault)

/-- A text without faults is compiled. -/
theorem exists_compileEquation_iff {subs : Substitutions F} {scope : Scope} {text : String} :
    (∃ p, compileEquation subs scope text = .ok p) ↔ ∀ fault, ¬ Faulty subs scope text fault := by
  simp only [← compileEquation_eq_error_iff]
  rcases isOk_or_error (compileEquation subs scope text) with ⟨p, h⟩ | ⟨fault, h⟩ <;> simp [h]

/-- Equations are answered with an error iff they are refused, and with the reason for it. -/
theorem solveEquations_eq_error_iff_refused {equations : List String} {assignment : Keyed Float}
    {o : SolveOptions Float} {error : SolveError Float} :
    solveEquations equations assignment o = .error error ↔
      Refused equations assignment.keys o error := by
  rw [solveEquations_eq_error_iff, validate_settings]
  constructor
  · -- the options are checked first, epsilon before the limit, and then the texts in their order
    intro h
    split at h
    · next hε =>
      rcases h with ⟨_, h, rfl⟩ | ⟨h, -⟩
      · cases h
        exact .epsilon hε
      · cases h
    next hε =>
    split at h
    · next hsteps =>
      rcases h with ⟨_, h, rfl⟩ | ⟨h, -⟩
      · cases h
        exact .maxSteps (not_not.mp hε) hsteps
      · cases h
    next hsteps =>
    rcases h with ⟨_, h, -⟩ | ⟨-, fault, hmapM, rfl⟩
    · cases h
    · obtain ⟨before, text, after, hsplit, hbefore, htext⟩ := mapM_eq_error.mp hmapM
      exact .equation (not_not.mp hε) hsteps hsplit
        (fun t ht => exists_compileEquation_iff.mp (hbefore t ht))
        (compileEquation_eq_error_iff.mp htext)
  · rintro (hε | ⟨hε, hsteps⟩ | ⟨hε, hsteps, hsplit, fine, faulty⟩)
    · rw [if_pos hε]
      exact .inl ⟨_, rfl, rfl⟩
    · rw [if_neg (not_not.mpr hε), if_pos hsteps]
      exact .inl ⟨_, rfl, rfl⟩
    · rw [if_neg (not_not.mpr hε), if_neg hsteps]
      exact .inr ⟨rfl, _, mapM_eq_error.mpr ⟨_, _, _, hsplit,
        fun t ht => exists_compileEquation_iff.mpr (fine t ht),
        compileEquation_eq_error_iff.mpr faulty⟩, rfl⟩

/-- Equations are refused iff the options or one of the equations are faulty. -/
theorem exists_refused_iff {equations names : List String} {o : SolveOptions Float} :
    (∃ error, Refused equations names o error) ↔
      ¬ 0 < o.epsilon ∨ o.maxSteps = some 0 ∨
        ∃ text ∈ equations, ∃ fault, Faulty o.forwardSubs (.ofNames names) text fault := by
  constructor
  · rintro ⟨_, hε | ⟨-, hsteps⟩ | ⟨-, -, rfl, -, faulty⟩⟩
    · exact .inl hε
    · exact .inr (.inl hsteps)
    · exact .inr (.inr ⟨_, by simp, _, faulty⟩)
  · intro h
    by_cases hε : 0 < o.epsilon
    swap
    · exact ⟨_, .epsilon hε⟩
    by_cases hsteps : o.maxSteps = some 0
    · exact ⟨_, .maxSteps hε hsteps⟩
    obtain ⟨text, hmem, fault, faulty⟩ := (h.resolve_left (not_not.mpr hε)).resolve_left hsteps
    -- the equations cannot all be compiled, so there is a first one that cannot
    rcases isOk_or_error (equations.mapM (compileEquation o.forwardSubs (.ofNames names)))
      with ⟨programs, hmapM⟩ | ⟨first, hmapM⟩
    · obtain ⟨i, hi, rfl⟩ := List.getElem_of_mem hmem
      have compiled := forall₂_of_mapM_eq_ok hmapM
      have hp := compiled.get hi (compiled.length_eq ▸ hi)
      rw [List.get_eq_getElem, compileEquation_eq_error_iff.mpr faulty] at hp
      cases hp
    · obtain ⟨before, text, after, hsplit, hbefore, htext⟩ := mapM_eq_error.mp hmapM
      exact ⟨_, .equation hε hsteps hsplit
        (fun t ht => exists_compileEquation_iff.mp (hbefore t ht))
        (compileEquation_eq_error_iff.mp htext)⟩

/-- **Equations are refused for their settings or for the first faulty equation only.**  There is an
    error iff epsilon is not positive, no step is allowed, or some equation cannot be read or
    compiled; it is the error of the first of these, and of an equation it is the one in reading if
    there is one.  No search ever reports why it failed.  Otherwise there is a flag for each
    equation. -/
theorem solveEquations_refuses (equations : List String) (assignment : Keyed Float)
    (o : SolveOptions Float) :
    ((∃ error, solveEquations equations assignment o = .error error) ↔
      ¬ 0 < o.epsilon ∨ o.maxSteps = some 0 ∨ ∃ text ∈ equations, ∃ fault,
        Faulty o.forwardSubs (.ofNames assignment.keys) text fault) ∧
    (∀ error, solveEquations equations assignment o = .error error ↔
      Refused equations assignment.keys o error) ∧
    (∀ fault, solveEquations equations assignment o ≠ .error (.formula (.evaluating fault))) ∧
    (∀ step reason, solveEquations equations assignment o ≠ .error (.diverged step reason)) ∧
    ∀ solution, solveEquations equations assignment o = .ok solution →
      solution.satisfied.length = equations.length := by
  refine ⟨?_, fun error => solveEquations_eq_error_iff_refused, fun fault h => ?_,
    fun step reason h => ?_, fun solution h => ?_⟩
  · simp only [solveEquations_eq_error_iff_refused]
    exact exists_refused_iff
  · rcases solveEquations_eq_error_iff_refused.mp h with _ | _ | ⟨-, -, -, -, faulty⟩
    cases faulty
  · cases solveEquations_eq_error_iff_refused.mp h
  · obtain ⟨-, programs, hmapM, hanswer⟩ := solveEquations_eq_ok_iff.mp h
    exact (SolveOptions.length_answer hanswer).trans (forall₂_of_mapM_eq_ok hmapM).length_eq.symm

end Drafting
