import Drafting.Proofs.Relaxation.Elimination
import Drafting.Proofs.Relaxation.Soundness

namespace Drafting

/-!
# Flags that are false

A condition is dropped at a point where it is not met.  The rounds that follow go on from this
point without it, and nobody looks whether it is met where they end.  So a flag that is false tells
about the round in which the condition was dropped, and about the end only if the point has not
moved since then.

* `Drops` — a round that drops a condition, and `Rounds` — rounds one after the other;
* `Rounds.exists_drops` — what is not left any more was dropped in one of the rounds;
* `eliminate_rounds`, `relax_drops` — elimination and relaxation in rounds;
* `solveEquations_drops` — equations that come back as not satisfied.
-/

/-- Where relaxation stands between two rounds. -/
structure Stage (β : Type) (n : Nat) where
  /-- The places of the conditions that are left. -/
  left : Finset (Fin n)
  /-- Where the next search starts. -/
  point : β

section Rounds

variable {ε α β : Type} (minimizer : List α → β → Option β) (isMet : β → α → Bool)
  (conditions : List α)

/-- A round that drops a condition: the first one left that is not met where the search ends. -/
structure Drops (s : Stage β conditions.length) (i : Fin conditions.length)
    (s' : Stage β conditions.length) : Prop where
  left : i ∈ s.left
  point : s'.point = (minimizer (s.left.sort.map conditions.get) s.point).getD s.point
  unmet : isMet s'.point (conditions.get i) = false
  first : ∀ j ∈ s.left, j < i → isMet s'.point (conditions.get j) = true
  others : s'.left = s.left.erase i

/-- Rounds one after the other, each of which drops a condition. -/
def Rounds : Stage β conditions.length → Stage β conditions.length → Prop :=
  Relation.ReflTransGen fun s s' => ∃ i, Drops minimizer isMet conditions s i s'

/-- The end: if anything is left, there is one more search, and all that is left is met there. -/
structure Settles (s : Stage β conditions.length) (final : β) : Prop where
  point : final =
    if s.left = ∅ then s.point
    else (minimizer (s.left.sort.map conditions.get) s.point).getD s.point
  met : ∀ i ∈ s.left, isMet final (conditions.get i) = true

variable {minimizer isMet conditions} {s s' last : Stage β conditions.length}
  {i : Fin conditions.length}

/-! ### Rounds -/

/-- **What is not left any more was dropped.** -/
theorem Rounds.exists_drops (h : Rounds minimizer isMet conditions s last) (hi : i ∈ s.left)
    (hlast : i ∉ last.left) :
    ∃ before after, Rounds minimizer isMet conditions s before ∧
      Drops minimizer isMet conditions before i after ∧
      Rounds minimizer isMet conditions after last := by
  induction h using Relation.ReflTransGen.head_induction_on with
  | refl => exact absurd hi hlast
  | @head s next hround hrest ih =>
    obtain ⟨j, hdrops⟩ := hround
    by_cases hij : i = j
    · exact ⟨s, next, .refl, hij ▸ hdrops, hrest⟩
    · have still : i ∈ next.left := hdrops.others ▸ Finset.mem_erase_of_ne_of_mem hij hi
      obtain ⟨before, after, hbefore, hdropped, hafter⟩ := ih still
      exact ⟨before, after, .head ⟨j, hdrops⟩ hbefore, hdropped, hafter⟩

/-- What the minimizer keeps of a point, a round keeps. -/
theorem Drops.keeps {P : β → Prop}
    (hmin : ∀ tried x y, P x → minimizer tried x = some y → P y)
    (h : Drops minimizer isMet conditions s i s') (hs : P s.point) : P s'.point := by
  rw [h.point]
  cases hfound : minimizer (s.left.sort.map conditions.get) s.point with
  | none => exact hs
  | some y => exact hmin _ _ y hs hfound

/-- What the minimizer keeps of a point, rounds keep. -/
theorem Rounds.keeps {P : β → Prop}
    (hmin : ∀ tried x y, P x → minimizer tried x = some y → P y)
    (h : Rounds minimizer isMet conditions s s') (hs : P s.point) : P s'.point := by
  induction h with
  | refl => exact hs
  | tail _ hround ih =>
    obtain ⟨i, hdrops⟩ := hround
    exact hdrops.keeps hmin ih

/-! ### Elimination and relaxation -/

/-- **Elimination goes in rounds**, up to a stage where all that is left is met. -/
theorem eliminate_rounds (minimizer : List α → β → Option β) (isMet : β → α → Bool)
    (conditions : List α) (places : Finset (Fin conditions.length)) (x : β) :
    let e := eliminate minimizer isMet conditions places x
    ∃ last, Rounds minimizer isMet conditions ⟨places, x⟩ last ∧ last.left = e.kept ∧
      Settles minimizer isMet conditions last e.point := by
  fun_induction eliminate minimizer isMet conditions places x with
  | case1 x =>
    refine ⟨⟨∅, x⟩, .refl, rfl, (if_pos rfl).symm, fun i hi => ?_⟩
    exact absurd hi (Finset.notMem_empty i)
  | case2 places x hne tried point unmet h rest ih =>
    obtain ⟨last, hrounds, hleft, hsettles⟩ := ih
    obtain ⟨hmem, hunmet⟩ := Finset.mem_filter.mp (unmet.min'_mem h)
    have drops : Drops minimizer isMet conditions ⟨places, x⟩ (unmet.min' h)
        ⟨places.erase (unmet.min' h), point⟩ := by
      refine ⟨hmem, rfl, by simpa using hunmet, fun j hj hlt => ?_, rfl⟩
      -- what comes before the least place that is not met is met
      by_contra hmet
      have among : j ∈ unmet := Finset.mem_filter.mpr ⟨hj, by simpa using hmet⟩
      exact absurd (unmet.min'_le j among) (not_le.mpr hlt)
    exact ⟨last, .head ⟨_, drops⟩ hrounds, hleft, hsettles⟩
  | case3 places x hne tried point unmet h =>
    refine ⟨⟨places, x⟩, .refl, rfl, (if_neg hne).symm, fun i hi => ?_⟩
    by_contra hmet
    exact h ⟨i, Finset.mem_filter.mpr ⟨hi, by simpa using hmet⟩⟩

/-- **A flag that is false tells about one round**: the one in which the condition was dropped. -/
theorem relax_drops {x final : β} {flags : List Bool}
    (h : (relax minimizer isMet conditions x : Except ε _) = .ok (flags, final))
    (hflag : flags[i.val]? = some false) :
    ∃ before after last, Rounds minimizer isMet conditions ⟨Finset.univ, x⟩ before ∧
      Drops minimizer isMet conditions before i after ∧
      Rounds minimizer isMet conditions after last ∧
      Settles minimizer isMet conditions last final := by
  rw [relax_eq_of_eliminate] at h
  cases h
  obtain ⟨last, hrounds, hleft, hsettles⟩ :=
    eliminate_rounds minimizer isMet conditions Finset.univ x
  have dropped : i ∉ last.left := by simpa [hleft] using hflag
  obtain ⟨before, after, hbefore, hdrops, hafter⟩ :=
    hrounds.exists_drops (Finset.mem_univ i) dropped
  exact ⟨before, after, last, hbefore, hdrops, hafter, hsettles⟩

end Rounds

/-! ### Equations -/

variable {F : Type} [Scalar F]

/-- In an assignment an equation has no value, or one whose square is not below the threshold. -/
def SolveOptions.FailsIn (o : SolveOptions F) (text : String) (a : Keyed F) : Prop :=
  ∀ d, evaluate text a = .ok d →
    Scalar.less (d.value * d.value) (Scalar.sqrt o.epsilon) = false

/-- Without replacements what is compiled is the text itself. -/
theorem evaluate_of_compileEquation {text : String} {a : Keyed F} {p : Program F}
    (h : compileEquation Keyed.empty (.ofNames a.keys) text = .ok p) :
    evaluate text a = (p.eval a.values).mapError .evaluating := by
  obtain ⟨e, hread, hcompile⟩ := compileEquation_eq_ok h
  have same : e.replace (Substitutions.replacement Keyed.empty) = e := e.replace_none
  rw [same] at hcompile
  simp [evaluate, hread, hcompile, Except.mapError, bind, Except.bind]

/-- What is not met at some values fails in the assignment of these values. -/
theorem SolveOptions.failsIn_of_unmet {o : SolveOptions F} {assignment : Keyed F} {text : String}
    {p : Program F} {values : List F}
    (hcompiled : compileEquation Keyed.empty (.ofNames assignment.keys) text = .ok p)
    (hlen : values.length = assignment.keys.length) (hunmet : o.isMet values p = false) :
    o.FailsIn text (Keyed.ofList (assignment.keys.zip values)) := by
  intro d heval
  have hkeys := assignment.keys_ofList_zip hlen
  have hvalues := assignment.values_ofList_zip hlen
  rw [evaluate_of_compileEquation (hkeys ▸ hcompiled), hvalues, mapError_eq_ok] at heval
  by_contra hless
  have met : o.isMet values p = true := isMet_iff.mpr ⟨d, heval, by simpa using hless⟩
  rw [hunmet] at met
  cases met

/-- **An equation that comes back as not satisfied was not met when it was dropped.**  Without
    replacements, relaxation goes in rounds from the values of the assignment to those that come
    back.  In one of the rounds the equation was the first one left that was not met where the
    search ended: in the assignment of these values it fails.  It fails in the assignment that comes
    back too, if the rounds behind have not moved the values. -/
theorem solveEquations_drops (equations : List String) (assignment : Keyed F) (o : SolveOptions F)
    (solution : Solution F) (hsubs : o.forwardSubs = Keyed.empty)
    (h : solveEquations equations assignment o = .ok solution) :
    ∃ programs : List (Program F),
      List.Forall₂
        (fun text p => compileEquation o.forwardSubs (.ofNames assignment.keys) text = .ok p)
        equations programs ∧
      ∀ (i : Fin programs.length) (text : String), equations[i.val]? = some text →
        solution.satisfied[i.val]? = some false →
        ∃ before after last : Stage (List F) programs.length,
          Rounds (o.minimizer assignment.keys) o.isMet programs ⟨Finset.univ, assignment.values⟩
            before ∧
          Drops (o.minimizer assignment.keys) o.isMet programs before i after ∧
          Rounds (o.minimizer assignment.keys) o.isMet programs after last ∧
          Settles (o.minimizer assignment.keys) o.isMet programs last
            solution.assignment.values ∧
          o.FailsIn text (Keyed.ofList (assignment.keys.zip after.point)) ∧
          (after.point = solution.assignment.values → o.FailsIn text solution.assignment) := by
  obtain ⟨-, programs, hmapM, hanswer⟩ := solveEquations_eq_ok_iff.mp h
  have hprograms := forall₂_of_mapM_eq_ok hmapM
  refine ⟨programs, hprograms, fun i text htext hflag => ?_⟩
  have start : assignment.values.length = assignment.keys.length :=
    assignment.length_values.trans assignment.length_keys.symm
  -- the answer is that of relaxation, and nothing is written back
  have some_left : programs ≠ [] := List.ne_nil_of_length_pos i.pos
  obtain ⟨flags, values, hrelax, rfl⟩ := (SolveOptions.answer_eq_ok_iff some_left).mp hanswer
  have final := SolveOptions.length_relax start hrelax
  have unwritten : o.forwardSubs.writeBack (Keyed.ofList (assignment.keys.zip values)) =
      Keyed.ofList (assignment.keys.zip values) := by
    rw [hsubs]
    rfl
  rw [unwritten]
  obtain ⟨before, after, last, hbefore, hdrops, hafter, hsettles⟩ := relax_drops hrelax hflag
  -- runs of the minimizer keep the number of values, and so what is left in a round can be put back
  have moved : ∀ tried (x y : List F), x.length = assignment.keys.length →
      o.minimizer assignment.keys tried x = some y → y.length = assignment.keys.length :=
    fun _ _ _ _ hfound => SolveOptions.length_minimizer hfound
  have length : after.point.length = assignment.keys.length :=
    hdrops.keeps moved (hbefore.keeps moved start)
  have compiled : compileEquation Keyed.empty (.ofNames assignment.keys) text =
      .ok (programs.get i) := by
    obtain ⟨hi, rfl⟩ := List.getElem?_eq_some_iff.mp htext
    exact hsubs ▸ (List.forall₂_iff_get.mp hprograms).2 i hi i.isLt
  have fails := SolveOptions.failsIn_of_unmet compiled length hdrops.unmet
  rw [assignment.values_ofList_zip final]
  exact ⟨before, after, last, hbefore, hdrops, hafter, hsettles, fails, fun same => same ▸ fails⟩

/-! ### An equation that is met again -/

/-- `x = 1` twice and `x = 5`. -/
def twoTargets : List String := ["x - 1", "x - 5", "x - 1"]

/-- `x` is zero. -/
def atZero : Keyed Float := ⟨[("x", 0)], by decide⟩

/-- The first search ends between the two targets, and the first equation is dropped there. -/
theorem solveEquations_drops_twoTargets :
    ∃ (solution : Solution Float) (programs : List (Program Float)) (i : Fin programs.length)
      (before after : Stage (List Float) programs.length),
      solveEquations twoTargets atZero SolveOptions.default = .ok solution ∧
      solution.satisfied = [false, false, true] ∧ i.val = 0 ∧
      Rounds (SolveOptions.default.minimizer ["x"]) SolveOptions.default.isMet programs
        ⟨Finset.univ, [0]⟩ before ∧
      Drops (SolveOptions.default.minimizer ["x"]) SolveOptions.default.isMet programs before i
        after ∧
      SolveOptions.default.FailsIn "x - 1" (Keyed.ofList (["x"].zip after.point)) := by
  have hflags : (solveEquations twoTargets atZero SolveOptions.default).toOption.map
      (·.satisfied) = some [false, false, true] := by
    decide +kernel
  obtain ⟨solution, hsolution, hsatisfied⟩ := Option.map_eq_some_iff.mp hflags
  have hsolved := toOption_eq_some.mp hsolution
  obtain ⟨programs, hprograms, hdropped⟩ :=
    solveEquations_drops twoTargets atZero SolveOptions.default solution rfl hsolved
  have three : 0 < programs.length := by
    rw [← hprograms.length_eq]
    decide
  obtain ⟨before, after, last, rounds, drops, -, -, fails, -⟩ :=
    hdropped ⟨0, three⟩ "x - 1" rfl (by rw [hsatisfied]; rfl)
  exact ⟨solution, programs, ⟨0, three⟩, before, after, hsolved, hsatisfied, rfl, rounds, drops,
    fails⟩

/-- **A flag that is false may be out of date.** -/
theorem not_flags_current :
    ¬ ∀ (equations : List String) (assignment : Keyed Float) (o : SolveOptions Float)
      (solution : Solution Float), o.forwardSubs = Keyed.empty →
      solveEquations equations assignment o = .ok solution →
      ∀ (i : Nat) (text : String), equations[i]? = some text →
        solution.satisfied[i]? = some false → o.FailsIn text solution.assignment := by
  intro h
  have holds : ∃ solution d, solveEquations twoTargets atZero SolveOptions.default = .ok solution ∧
      solution.satisfied[0]? = some false ∧ evaluate "x - 1" solution.assignment = .ok d ∧
      Scalar.less (d.value * d.value) (Scalar.sqrt SolveOptions.default.epsilon) = true := by
    have computed : (solveEquations twoTargets atZero SolveOptions.default).toOption.bind
        (fun solution => (evaluate "x - 1" solution.assignment).toOption.map fun d =>
          (solution.satisfied[0]?,
            Scalar.less (d.value * d.value) (Scalar.sqrt SolveOptions.default.epsilon))) =
        some (some false, true) := by
      decide +kernel
    obtain ⟨solution, hsolution, hvalue⟩ := Option.bind_eq_some_iff.mp computed
    obtain ⟨d, heval, hpair⟩ := Option.map_eq_some_iff.mp hvalue
    obtain ⟨hflag, hless⟩ := Prod.mk.inj hpair
    exact ⟨solution, d, toOption_eq_some.mp hsolution, hflag, toOption_eq_some.mp heval, hless⟩
  obtain ⟨solution, d, hsolved, hflag, heval, hless⟩ := holds
  have fails := h twoTargets atZero SolveOptions.default solution rfl hsolved 0 "x - 1" rfl hflag
  rw [fails d heval] at hless
  cases hless

end Drafting
