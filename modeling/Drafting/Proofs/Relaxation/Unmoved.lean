import Drafting.Proofs.Exact.Real
import Drafting.Proofs.LeastSquares.Unmoved
import Drafting.Proofs.Relaxation.Soundness

namespace Drafting

open Text

/-!
# What solving leaves as it was

Solving moves the variables that equations refer to, and gives replaced names their values; nothing
else changes.  A variable takes part in every step of every search, but where no equation refers to
it, it is moved by zero in each.

* `Keyed.getElem?_insert_of_ne`, `Substitutions.getElem?_writeBack` — entries that are not written;
* `Substitutions.keys_writeBack` — names that are new;
* `SolveOptions.getElem?_minimizer` — variables that a search does not move;
* `solveEquations_leaves` — what solving leaves, and what it does not.
-/

/-! ### Writing back -/

/-- The other entries stay where they are. -/
theorem Keyed.getElem?_insert_of_ne {α : Type} {m : Keyed α} {j : Nat} {e : String × α}
    (h : m.entries[j]? = some e) {name : String} (hne : e.1 ≠ name) (x : α) :
    (m.insert name x).entries[j]? = some e := by
  unfold insert
  split
  · show (setEntries name x m.entries)[j]? = some e
    simp [setEntries, h, hne]
  · exact List.getElem?_append_left (List.getElem?_eq_some_iff.mp h).1 ▸ h

namespace Substitutions

variable {F : Type} {subs : Substitutions F} {a : Keyed F} {name : String} {j : Nat}
  {e : String × F}

/-- The entry that is given the value has the name. -/
theorem sameName_assigned (a : Keyed F) (name : String) :
    sameName (((a.findNamed? name).map Prod.fst).getD name) name = true := by
  cases hfound : a.findNamed? name with
  | none => exact sameName_refl name
  | some found => exact (Keyed.of_findNamed?_eq_some hfound).1

/-- An entry with another name keeps its place and its value. -/
theorem getElem?_writeBackOne (h : a.entries[j]? = some e) (apart : sameName name e.1 = false) :
    (subs.writeBackOne a name).entries[j]? = some e := by
  unfold writeBackOne
  split
  · refine Keyed.getElem?_insert_of_ne h (fun heq => ?_) _
    have same := sameName_assigned a name
    rw [← heq, sameName_comm, apart] at same
    cases same
  · exact h

/-- **Entries that are not written back.** -/
theorem getElem?_writeBack (h : a.entries[j]? = some e)
    (apart : ∀ name ∈ subs.keys, sameName name e.1 = false) :
    (subs.writeBack a).entries[j]? = some e := by
  unfold writeBack
  generalize subs.keys = names at apart
  induction names generalizing a with
  | nil => exact h
  | cons name rest ih =>
    obtain ⟨first, others⟩ := List.forall_mem_cons.mp apart
    exact ih (getElem?_writeBackOne h first) others

/-- A name is new only if no variable has it. -/
theorem keys_writeBackOne (subs : Substitutions F) (a : Keyed F) (name : String) :
    (subs.writeBackOne a name).keys = a.keys ∨
      (subs.writeBackOne a name).keys = a.keys ++ [name] ∧
        ∀ key ∈ a.keys, sameName key name = false := by
  unfold writeBackOne
  split
  · unfold assign
    cases hfound : a.findNamed? name with
    | some found =>
      exact .inl (Keyed.keys_insert_of_mem (Keyed.of_findNamed?_eq_some hfound).2 _)
    | none =>
      have apart := Keyed.findNamed?_eq_none.mp hfound
      have fresh : name ∉ a.keys := fun hmem => by simpa using apart name hmem
      exact .inr ⟨Keyed.keys_insert_of_not_mem fresh _, apart⟩
  · exact .inl rfl

/-- **Names that are new.**  They come last, in the order of the replacements. -/
theorem keys_writeBack (subs : Substitutions F) (a : Keyed F) :
    ∃ added, (subs.writeBack a).keys = a.keys ++ added ∧ added.Sublist subs.keys ∧
      ∀ name ∈ added, ∀ key ∈ a.keys, sameName key name = false := by
  unfold writeBack
  generalize subs.keys = names
  induction names generalizing a with
  | nil => exact ⟨[], (List.append_nil _).symm, .slnil, nofun⟩
  | cons name rest ih =>
    obtain ⟨added, hkeys, hsub, hnew⟩ := ih (subs.writeBackOne a name)
    rcases subs.keys_writeBackOne a name with same | ⟨more, apart⟩
    · rw [same] at hkeys hnew
      exact ⟨added, hkeys, hsub.cons name, hnew⟩
    · rw [more] at hkeys hnew
      refine ⟨name :: added, by simpa using hkeys, hsub.cons_cons name, ?_⟩
      exact List.forall_mem_cons.mpr ⟨apart, fun name' hname' key hkey =>
        hnew name' hname' key (List.mem_append_left _ hkey)⟩

end Substitutions

/-! ### Solving -/

variable {K : Type} [ExactScalar K] [LinearOrder K] [IsStrictOrderedRing K] [ExactOrder K]

/-- A variable that all equations ignore is not moved. -/
theorem SolveOptions.getElem?_minimizer {o : SolveOptions K} {names : List String}
    {programs : List (Program K)} {values values' : List K} {j : Nat}
    (hvalid : o.settings.validate = .ok ()) (hj : j < names.length)
    (hignores : ∀ p ∈ programs, p.Ignores j)
    (h : o.minimizer names programs values = some values') : values'[j]? = values[j]? := by
  unfold minimizer at h
  dsimp only at h
  split at h
  · next d _ hsearch =>
    obtain rfl := Option.some.inj h
    exact get_of_minimizeWithin (j := ⟨j, hj⟩) (Equations.residualSystem_overwrites _ _)
      (Equations.ignores_residualSystem hignores) hvalid hsearch
  · cases h

/-- Relaxation does not move it either. -/
theorem SolveOptions.getElem?_relax {o : SolveOptions K} {names : List String}
    {programs : List (Program K)} {values final : List K} {flags : List Bool} {j : Nat}
    (hvalid : o.settings.validate = .ok ()) (hj : j < names.length)
    (hignores : ∀ p ∈ programs, p.Ignores j)
    (h : (relax (o.minimizer names) o.isMet programs values : Except (SolveError K) _) =
      .ok (flags, final)) : final[j]? = values[j]? :=
  relax_keeps (P := fun values' : List K => values'[j]? = values[j]?)
    (fun _ hleft _ _ hx h =>
      (getElem?_minimizer hvalid hj (fun p hp => hignores p (hleft.subset hp)) h).trans hx) h rfl

/-- **Solving moves nothing else.**  In exact arithmetic, and where no chain of replacements comes
    back to its start, of a solution of at least one equation this is known:

    * the names of the variables come first and in their order, then the replaced names that no
      variable has, in the order of the replacements;
    * a variable that no equation refers to, with names replaced, and that is not itself replaced
      keeps its place and its value;
    * a name whose chain ends in a number has this number as its value;
    * a name whose chain ends in another name has the value of that name, if there is one.

    The value of a name is that of the first variable with this name up to the case of ASCII
    letters. -/
theorem solveEquations_leaves (equations : List String) (assignment : Keyed K) (o : SolveOptions K)
    (solution : Solution K) (hequations : equations ≠ []) (hacyclic : o.forwardSubs.Acyclic)
    (h : solveEquations equations assignment o = .ok solution) :
    (∃ added, solution.assignment.keys = assignment.keys ++ added ∧
      added.Sublist o.forwardSubs.keys ∧
      ∀ name ∈ added, ∀ key ∈ assignment.keys, sameName key name = false) ∧
    (∀ j key x, assignment.entries[j]? = some (key, x) →
      (∀ text ∈ equations, ∀ e, Formula.ofText text = .ok e →
        ¬ (o.forwardSubs.substitute e).RefersTo assignment.keys j) →
      (∀ name ∈ o.forwardSubs.keys, sameName name key = false) →
      solution.assignment.entries[j]? = some (key, x)) ∧
    (∀ name x, o.forwardSubs.EndsIn name (.value x) →
      solution.assignment.named? name = some x) ∧
    ∀ name target x, o.forwardSubs.EndsIn name (.variable target) →
      solution.assignment.named? target = some x → solution.assignment.named? name = some x := by
  obtain ⟨hvalid, programs, hmapM, hanswer⟩ := solveEquations_eq_ok_iff.mp h
  have compiled := forall₂_of_mapM_eq_ok hmapM
  have left : programs ≠ [] := by
    rintro rfl
    exact hequations (List.forall₂_nil_right_iff.mp compiled)
  obtain ⟨flags, values, hrelax, rfl⟩ := (SolveOptions.answer_eq_ok_iff left).mp hanswer
  have start : assignment.values.length = assignment.keys.length :=
    assignment.length_values.trans assignment.length_keys.symm
  have length := SolveOptions.length_relax start hrelax
  -- a variable that no program depends on is where it was after all the runs
  have unmoved (j : Nat) (hj : j < assignment.keys.length)
      (hignores : ∀ p ∈ programs, p.Ignores j) :=
    SolveOptions.getElem?_relax hvalid hj hignores hrelax
  have entries := assignment.entries_ofList_zip length
  have keys := assignment.keys_ofList_zip length
  -- the rest is about what is written back into the values of the relaxation
  generalize Keyed.ofList (assignment.keys.zip values) = a at entries keys
  refine ⟨keys ▸ o.forwardSubs.keys_writeBack a, ?_, ?_, ?_⟩
  · intro j key x hentry unreferred apart
    refine Substitutions.getElem?_writeBack ?_ apart
    have hkey : assignment.keys[j]? = some key := by simp [Keyed.keys, hentry]
    have hx : assignment.values[j]? = some x := by simp [Keyed.values, hentry]
    have ignored : ∀ p ∈ programs, p.Ignores j := by
      intro p hp
      obtain ⟨i, hi, rfl⟩ := List.getElem_of_mem hp
      have hi' : i < equations.length := compiled.length_eq ▸ hi
      obtain ⟨e, hread, hcode⟩ := compileEquation_eq_ok_iff.mp (compiled.get hi' hi)
      exact Scope.ignores_of_compile hcode (unreferred _ (List.getElem_mem hi') e hread)
    rw [entries, List.getElem?_zip_eq_some]
    exact ⟨hkey, (unmoved j (List.getElem?_eq_some_iff.mp hkey).1 ignored).trans hx⟩
  · -- a chain that ends in a number
    intro name x hends
    rw [Substitutions.named?_writeBack hacyclic, Substitutions.solvedValue?,
      hends.resolve?_eq hacyclic, Option.some_or]
  · -- a chain that ends in a name: writing back leaves the value of that name alone
    intro name target x hends htarget
    have free := hends.free rfl
    rw [Substitutions.named?_writeBack hacyclic, Substitutions.solvedValue?_of_lookup? free,
      Option.none_or] at htarget
    rw [Substitutions.named?_writeBack hacyclic, Substitutions.solvedValue?,
      hends.resolve?_eq hacyclic]
    show (a.named? target).or (a.named? name) = _
    rw [htarget, Option.some_or]

/-! ### A variable on the side -/

/-- Options that replace `z` by `X` and `w` by a number. -/
noncomputable def pinned : SolveOptions ℝ :=
  { SolveOptions.default with
    forwardSubs := ⟨[("z", .variable "X"), ("w", .value 4)], by decide⟩ }

theorem validate_pinned : pinned.settings.validate = .ok () :=
  Settings.validate_default (Option.some_ne_none 0).symm

/-- The only chain of names has one step. -/
theorem acyclic_pinned : pinned.forwardSubs.Acyclic := by
  refine Substitutions.acyclic_of_rank (fun name => if asciiFold name = "z" then 1 else 0) ?_
  rintro name name' ⟨target, hlookup, hsame⟩
  obtain ⟨e, hfound, he⟩ := Option.map_eq_some_iff.mp hlookup
  have hname := (Keyed.of_findNamed?_eq_some hfound).1
  have hmem : e ∈ [("z", .variable "X"), ("w", .value (4 : ℝ))] :=
    Keyed.mem_of_findNamed?_eq_some hfound
  rw [← sameName_iff.mp hname, ← sameName_iff.mp hsame]
  simp only [List.mem_cons, List.not_mem_nil, or_false] at hmem
  rcases hmem with rfl | rfl
  · cases he
    decide
  · cases he

/-- The value of `y` is not asked for. -/
theorem solveEquations_leaves_pinned :
    ∃ solution, solveEquations ["z - 3"] ⟨[("X", 1), ("y", 5)], by decide⟩ pinned = .ok solution ∧
      solution.assignment.entries[1]? = some ("y", 5) ∧
      solution.assignment.named? "w" = some 4 := by
  have compiled : ["z - 3"].mapM (compileEquation pinned.forwardSubs (.ofNames ["X", "y"])) =
      .ok [⟨[.load 0, .constant (Scalar.ofDecimal 3 0), .binary .sub], 2⟩] := by
    rfl
  obtain ⟨solution, answered⟩ := pinned.exists_answer ⟨[("X", 1), ("y", 5)], by decide⟩
    [⟨[.load 0, .constant (Scalar.ofDecimal 3 0), .binary .sub], 2⟩]
  have solved : solveEquations ["z - 3"] ⟨[("X", 1), ("y", 5)], by decide⟩ pinned =
      .ok solution :=
    solveEquations_eq_ok_iff.mpr ⟨validate_pinned, _, compiled, answered⟩
  obtain ⟨-, stays, numbers, -⟩ := solveEquations_leaves _ _ _ _ (by decide) acyclic_pinned solved
  refine ⟨solution, solved, stays 1 "y" 5 rfl ?_ (by decide), numbers "w" 4 (.number rfl)⟩
  -- the only name that is left in the equation is that of the other variable
  rintro text htext e hread ⟨name, hname, hrefers⟩
  obtain rfl := List.mem_singleton.mp htext
  have formula : Formula.ofText "z - 3" = .ok (.binary .sub (.symbol "z")
      (.number (Scalar.ofDecimal 3 0 : ℝ))) := by
    rfl
  obtain rfl := Except.ok.inj (formula.symm.trans hread)
  have replaced : pinned.forwardSubs.substitute (.binary .sub (.symbol "z")
      (.number (Scalar.ofDecimal 3 0 : ℝ))) =
        .binary .sub (.symbol "x") (.number (Scalar.ofDecimal 3 0)) := by
    rfl
  rw [replaced] at hname
  obtain rfl : name = "x" := by simpa using hname
  have first : ["X", "y"].findIdx? (lowercase · == "x") = some 0 := by decide
  cases first.symm.trans hrefers

end Drafting
