import Drafting.Proofs.Relaxation.Answer
import Drafting.Proofs.Relaxation.Replaced

namespace Drafting

open Text

/-!
# Equations that are said to hold do hold

Equations are solved with names replaced and over the assigned variables alone.  An equation that
comes back as satisfied holds as it was written: its text has a value in the assignment that comes
back, names included that were written back, and the square of the value is below the threshold.

* `SolveOptions.length_minimizer` — points keep as many values as there are names;
* `solveEquations_eq_ok` — what a solution consists of;
* `solveEquations_sound` — satisfied equations hold.
-/

variable {F : Type} [Scalar F] {equations : List String} {assignment : Keyed F} {o : SolveOptions F}
  {solution : Solution F}

/-- The minimizer gives each variable a value. -/
theorem SolveOptions.length_minimizer {names : List String} {programs : List (Program F)}
    {values values' : List F} (h : o.minimizer names programs values = some values') :
    values'.length = names.length := by
  unfold minimizer at h
  dsimp only at h
  split at h
  · obtain rfl := Option.some.inj h
    exact Vector.length_toList
  · cases h

/-- What is compiled is the formula of a text with names replaced. -/
theorem compileEquation_eq_ok {subs : Substitutions F} {scope : Scope} {text : String}
    {p : Program F} (h : compileEquation subs scope text = .ok p) :
    ∃ e, Formula.ofText text = .ok e ∧ scope.compile (e.replace subs.replacement) = .ok p :=
  compileEquation_eq_ok_iff.mp h

/-- So does relaxation. -/
theorem SolveOptions.length_relax {names : List String} {programs : List (Program F)}
    {values final : List F} {flags : List Bool} (hlen : values.length = names.length)
    (h : (relax (o.minimizer names) o.isMet programs values : Except (SolveError F) _) =
      .ok (flags, final)) : final.length = names.length :=
  relax_keeps (P := fun values : List F => values.length = names.length)
    (fun _ _ _ _ _ h => length_minimizer h) h hlen

/-- An equation that is met has a value whose square is below the threshold. -/
theorem SolveOptions.isMet_iff {values : List F} {p : Program F} :
    o.isMet values p = true ↔ ∃ d, p.eval values = .ok d ∧
      Scalar.less (d.value * d.value) (Scalar.sqrt o.epsilon) = true := by
  unfold isMet threshold
  cases p.eval values <;> simp

/-- What a solution consists of: flags for the equations and values for the variables at which the
    equations with a flag are met. -/
theorem solveEquations_eq_ok (h : solveEquations equations assignment o = .ok solution) :
    ∃ (programs : List (Program F)) (values : List F),
      List.Forall₂
        (fun text p => compileEquation o.forwardSubs (.ofNames assignment.keys) text = .ok p)
        equations programs ∧
      values.length = assignment.keys.length ∧
      solution.satisfied.length = equations.length ∧
      ∀ i : Nat, solution.satisfied[i]? = some true →
        solution.assignment =
          o.forwardSubs.writeBack (Keyed.ofList (assignment.keys.zip values)) ∧
        ∃ p, programs[i]? = some p ∧ o.isMet values p = true := by
  obtain ⟨-, programs, hmapM, hanswer⟩ := solveEquations_eq_ok_iff.mp h
  have hprograms := forall₂_of_mapM_eq_ok hmapM
  have flags := (SolveOptions.length_answer hanswer).trans hprograms.length_eq.symm
  have start : assignment.values.length = assignment.keys.length :=
    assignment.length_values.trans assignment.length_keys.symm
  by_cases hne : programs = []
  · -- without equations nothing is solved, and there is no flag
    subst hne
    obtain rfl := List.forall₂_nil_right_iff.mp hprograms
    cases hanswer
    exact ⟨[], assignment.values, .nil, start, rfl, nofun⟩
  · obtain ⟨flagged, values, hrelax, rfl⟩ := (SolveOptions.answer_eq_ok_iff hne).mp hanswer
    exact ⟨programs, values, hprograms, SolveOptions.length_relax start hrelax, flags,
      fun i hi => ⟨rfl, isMet_of_relax hrelax hi⟩⟩

/-- **Equations that are said to hold do hold.**  All names may be ASCII only, no chain of
    replacements may come back to its start, and in the equation no number may replace a name in an
    operand of a power.  If such an equation comes back as satisfied, its text has a value in the
    assignment that comes back, and the square of the value is below the root of epsilon. -/
theorem solveEquations_sound (equations : List String) (assignment : Keyed F) (o : SolveOptions F)
    (solution : Solution F) (hnames : ∀ key ∈ assignment.keys, Text.IsAscii key)
    (hsubs : o.forwardSubs.IsAscii) (hacyclic : o.forwardSubs.Acyclic)
    (h : solveEquations equations assignment o = .ok solution) :
    solution.satisfied.length = equations.length ∧
    ∀ (i : Nat) (text : String), equations[i]? = some text →
      (∀ e, Formula.ofText text = .ok e → e.SparesPowers o.forwardSubs.replacement) →
      solution.satisfied[i]? = some true →
      ∃ d, evaluate text solution.assignment = .ok d ∧
        Scalar.less (d.value * d.value) (Scalar.sqrt o.epsilon) = true := by
  obtain ⟨programs, values, hprograms, hlen, hflags, hmet⟩ := solveEquations_eq_ok h
  refine ⟨hflags, fun i text htext hspares hsatisfied => ?_⟩
  obtain ⟨hassignment, p, hp, hholds⟩ := hmet i hsatisfied
  -- the equation with its names replaced has a value at the values that were found
  have hcompiled : compileEquation o.forwardSubs (.ofNames assignment.keys) text = .ok p := by
    obtain ⟨hi, rfl⟩ := List.getElem?_eq_some_iff.mp htext
    obtain ⟨hi', rfl⟩ := List.getElem?_eq_some_iff.mp hp
    exact (List.forall₂_iff_get.mp hprograms).2 i hi hi'
  obtain ⟨e, hread, hcode⟩ := compileEquation_eq_ok hcompiled
  obtain ⟨d, heval, hless⟩ := SolveOptions.isMet_iff.mp hholds
  obtain ⟨v, hv, rfl⟩ := Scope.interpret_of_eval hcode hlen heval
  -- before values are written back, the assignment has the values that were found
  have hkeys := assignment.keys_ofList_zip hlen
  have hvalues := assignment.values_ofList_zip hlen
  generalize Keyed.ofList (assignment.keys.zip values) = a at hassignment hkeys hvalues
  subst hvalues
  rw [← hkeys] at hnames hv
  obtain ⟨w, hw, stands⟩ := Formula.interpret_of_replace (hspares e hread)
    (fun name hname v hv => Substitutions.stands_symbol hacyclic hsubs hnames
      (Formula.asciiFold_of_ofText hread hname) hv) hv
  rw [← hassignment] at hw
  obtain ⟨q, hq⟩ := Scope.exists_compile hw
  have lengths : solution.assignment.values.length = solution.assignment.keys.length :=
    solution.assignment.length_values.trans solution.assignment.length_keys.symm
  refine ⟨_, evaluate_eq_ok hread hq (Scope.eval_of_interpret hq lengths hw), ?_⟩
  rw [Value.value_toDual] at hless ⊢
  rwa [← stands.real]

/-! ### A chain -/

/-- Options that replace `b` by `A`, `A` by `X` and `c` by a number. -/
def chained : SolveOptions Float :=
  { SolveOptions.default with
    forwardSubs := ⟨[("b", .variable "A"), ("A", .variable "X"), ("c", .value 4)], by decide⟩ }

/-- The longest chain has two steps. -/
theorem acyclic_chained : chained.forwardSubs.Acyclic := by
  -- how far a name is from the end of its chain
  refine Substitutions.acyclic_of_rank (fun name =>
    if asciiFold name = "b" then 2 else if asciiFold name = "a" then 1 else 0) ?_
  rintro name name' ⟨target, hlookup, hsame⟩
  obtain ⟨e, hfound, he⟩ := Option.map_eq_some_iff.mp hlookup
  have hname := (Keyed.of_findNamed?_eq_some hfound).1
  have hmem : e ∈ [("b", .variable "A"), ("A", .variable "X"), ("c", .value (4 : Float))] :=
    Keyed.mem_of_findNamed?_eq_some hfound
  rw [← sameName_iff.mp hname, ← sameName_iff.mp hsame]
  simp only [List.mem_cons, List.not_mem_nil, or_false] at hmem
  rcases hmem with rfl | rfl | rfl
  · cases he
    decide
  · cases he
    decide
  · cases he

/-- The names and the targets are ASCII only. -/
theorem isAscii_chained : chained.forwardSubs.IsAscii where
  keys := by decide
  targets := by
    intro target h
    have hmem : Substitution.variable target ∈
      [.variable "A", .variable "X", .value (4 : Float)] := h
    simp only [List.mem_cons, List.not_mem_nil, or_false, reduceCtorEq,
      Substitution.variable.injEq] at hmem
    rcases hmem with rfl | rfl <;> decide

/-- The only operands of a power are replaced by names. -/
theorem sparesPowers_chained {e : Formula Float} (h : Formula.ofText "b^2 - c" = .ok e) :
    e.SparesPowers chained.forwardSubs.replacement := by
  have hread : Formula.ofText "b^2 - c" = .ok (.binary .sub
      (.binary .pow (.symbol "b") (.number (Scalar.ofDecimal 2 0 : Float))) (.symbol "c")) := by
    rfl
  obtain rfl := Except.ok.inj (hread.symm.trans h)
  intro l r hpower
  obtain ⟨rfl, rfl⟩ : l = .symbol "b" ∧ r = .number (Scalar.ofDecimal 2 0) := by
    simpa using hpower
  have hb : chained.forwardSubs.replacement "b" = some (.symbol "x") := by rfl
  refine ⟨fun name hname x => ?_, nofun⟩
  obtain rfl := Formula.symbol.inj (Formula.part_symbol.mp hname)
  rw [hb]
  exact nofun

/-- The square of `b` is `c`, with both of them replaced. -/
theorem solveEquations_sound_chained :
    ∃ solution, solveEquations ["b^2 - c"] ⟨[("X", 2)], by decide⟩ chained = .ok solution ∧
      solution.satisfied = [true] ∧
      ∃ d, evaluate "b^2 - c" solution.assignment = .ok d ∧
        Scalar.less (d.value * d.value) (Scalar.sqrt chained.epsilon) = true := by
  have hflags : (solveEquations ["b^2 - c"] ⟨[("X", 2)], by decide⟩ chained).toOption.map
      (·.satisfied) = some [true] := by
    decide +kernel
  obtain ⟨solution, hsolution, hsatisfied⟩ := Option.map_eq_some_iff.mp hflags
  have hsolved := toOption_eq_some.mp hsolution
  have sound := solveEquations_sound ["b^2 - c"] ⟨[("X", 2)], by decide⟩ chained solution
    (by decide) isAscii_chained acyclic_chained hsolved
  have holds := sound.2 0 "b^2 - c" rfl (fun _ => sparesPowers_chained) (by rw [hsatisfied]; rfl)
  exact ⟨solution, hsolved, hsatisfied, holds⟩

end Drafting
