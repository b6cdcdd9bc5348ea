import Drafting.LeastSquares.Descent
import Drafting.Proofs.Program.Lent

namespace Drafting

/-!
# Three ways to evaluate equations

The values of a system of equations may be listed, they may be written to a buffer together with
their partials, or each may be asked for.  All three use the stack of the system, which holds what
the last evaluation left, and the buffer holds what the last linearization wrote.  They agree
nevertheless, and they do not depend on what was there before.

* `OnStack.outcome_mapM`, `OnStack.outcome_foldlM` — work that does not depend on the stack;
* `Equations.outcome_evalAtOn`, `Equations.outcome_residualsOn`, `Equations.outcome_linearizeOn` —
  the same results as on stacks of their own;
* `Equations.residualSystem_eq_error` — the first equation without a value;
* `Equations.evaluations_agree` — all three.
-/

/-- Results that are put together on the way fail where listing them fails. -/
theorem foldlM_map_eq_error {ε α β γ : Type} {f : α → Except ε γ} {g : β → α → γ → β} {xs : List α}
    {y : β} {e : ε} :
    xs.foldlM (fun y x => return g y x (← f x)) y = .error e ↔ xs.mapM f = .error e := by
  induction xs generalizing y with
  | nil => simp [pure, Except.pure]
  | cons x rest ih =>
    rw [List.foldlM_cons, List.mapM_cons]
    cases f x with
    | error e' =>
      show (.error e' : Except ε β) = _ ↔ (.error e' : Except ε (List γ)) = _
      rw [Except.error.injEq, Except.error.injEq]
    | ok z =>
      show rest.foldlM _ (g y x z) = _ ↔ (rest.mapM f >>= fun zs => pure (z :: zs)) = _
      rw [ih, bind_eq_error]
      simp [pure, Except.pure]

/-- Results may be adapted one by one or all at once. -/
theorem mapM_adapt {ε α β γ : Type} {f : α → Except ε β} {g : β → γ} (xs : List α) :
    xs.mapM (fun x => return g (← f x)) = (do return (← xs.mapM f).map g) := by
  induction xs with
  | nil => rfl
  | cons x rest ih =>
    rw [List.mapM_cons, List.mapM_cons, ih]
    cases f x with
    | error e => rfl
    | ok y => cases rest.mapM f <;> rfl

variable {F α β γ : Type}

/-- A row that holds all partials holds nothing else. -/
theorem Linearization.HasRow.toList {m n : Nat} {l : Linearization F m n} {i : Fin m} {d : Dual F}
    (h : l.HasRow i d) (hd : d.partials.length = n) : (l.jacobian.get i).toList = d.partials := by
  refine List.ext_getElem (by simp [hd]) fun j hj hj' => ?_
  have entry := h.2 ⟨j, hd ▸ hj'⟩
  rw [List.getElem?_eq_getElem hj'] at entry
  rw [Option.some.inj entry, Vector.getElem_toList]
  rfl

/-! ### Work that does not depend on the stack -/

namespace OnStack

variable {work : OnStack F α} {f : α → OnStack F β} {stack : Stack F}

/-- Where no part of the work depends on the stack, the whole does not. -/
theorem outcome_bind {r : Except (EvalError F) α} {g : α → Except (EvalError F) β}
    (hwork : (work.on stack).1 = r) (hf : ∀ a stack, ((f a).on stack).1 = g a) :
    ((work >>= f).on stack).1 = r >>= g := by
  rw [on_bind, ← hwork]
  obtain ⟨e | a, s⟩ := work.on stack
  · rfl
  · exact hf a s

/-- The same for work that is done on each element. -/
theorem outcome_mapM {g : α → Except (EvalError F) β} (hf : ∀ a stack, ((f a).on stack).1 = g a)
    (xs : List α) (stack : Stack F) : ((xs.mapM f).on stack).1 = xs.mapM g := by
  induction xs generalizing stack with
  | nil => rfl
  | cons x rest ih =>
    rw [List.mapM_cons, List.mapM_cons]
    exact outcome_bind (hf x stack) fun _ s => outcome_bind (ih s) fun _ _ => rfl

/-- Work through a list on one stack comes to the same as on a stack of its own each time. -/
theorem outcome_foldlM {f : γ → α → OnStack F γ} {g : γ → α → Except (EvalError F) γ}
    (hf : ∀ y a stack, ((f y a).on stack).1 = g y a) (xs : List α) (y : γ) (stack : Stack F) :
    ((xs.foldlM f y).on stack).1 = xs.foldlM g y := by
  induction xs generalizing y stack with
  | nil => rfl
  | cons x rest ih =>
    rw [List.foldlM_cons, List.foldlM_cons]
    exact outcome_bind (hf y x stack) ih

end OnStack

variable [Scalar F]

namespace Equations

variable (s : Equations F)

/-! ### The same results as on stacks of their own -/

/-- One equation on the shared stack has the value that it has on a stack of its own. -/
theorem outcome_evalAtOn (index : Nat) (values : List F) (stack : Stack F) :
    ((s.evalAtOn index values).on stack).1 = s.evalAt index values := by
  rw [evalAtOn, evalAt]
  cases s.programs[index]? with
  | none => rfl
  | some p => exact p.outcome_evalOn values stack

/-- So have all residuals. -/
theorem outcome_residualsOn (values : List F) (stack : Stack F) :
    ((s.residualsOn values).on stack).1 = s.residuals values := by
  have each (p : Program F) (stack : Stack F) :
      ((do return (← p.evalOn values).value : OnStack F F).on stack).1 =
        (do return (← p.eval values).value) :=
    OnStack.outcome_bind (p.outcome_evalOn values stack) fun _ _ => rfl
  rw [residualsOn, OnStack.outcome_mapM each, mapM_adapt, residuals, linearize]

/-- So has the linearization. -/
theorem outcome_linearizeOn {n : Nat} (x : Vector F n)
    (buffer : Linearization F s.programs.length n) (stack : Stack F) :
    ((s.linearizeOn x buffer).on stack).1 = s.residualSystem n x buffer := by
  refine OnStack.outcome_foldlM (fun l i stack => ?_) _ buffer stack
  exact OnStack.outcome_bind ((s.programs.get i).outcome_evalOn x.toList stack) fun _ _ => rfl

/-! ### Success and failure -/

variable {s} {n : Nat} {x : Vector F n} {values : List F} {e : EvalError F}

theorem evalAt_get (i : Fin s.programs.length) :
    s.evalAt i values = (s.programs.get i).eval values := by
  rw [evalAt, List.getElem?_eq_getElem i.isLt]
  rfl

/-- A buffer is not filled where the values cannot be listed. -/
theorem residualSystem_eq_error {buffer : Linearization F s.programs.length n} :
    s.residualSystem n x buffer = .error e ↔ s.linearize x.toList = .error e := by
  have rows : (List.finRange s.programs.length).mapM (fun i => (s.programs.get i).eval x.toList) =
      s.linearize x.toList := by
    rw [linearize, ← congrArg (List.mapM _) (List.map_get_finRange s.programs), List.mapM_map]
    rfl
  rw [← rows]
  exact foldlM_map_eq_error

/-- The first equation without a value is the reason that the values cannot be listed. -/
theorem exists_of_linearize_eq_error (h : s.linearize values = .error e) :
    ∃ i : Fin s.programs.length, (∀ j < i, ∃ d, (s.programs.get j).eval values = .ok d) ∧
      (s.programs.get i).eval values = .error e := by
  obtain ⟨before, p, after, hsplit, hbefore, hp⟩ := mapM_eq_error.mp h
  obtain ⟨names, programs⟩ := s
  subst hsplit
  refine ⟨⟨before.length, by simp⟩, fun j hj => ?_, ?_⟩
  · have inside : (j : Nat) < before.length := hj
    simpa [List.getElem_append_left inside] using hbefore _ (List.getElem_mem inside)
  · simpa using hp

/-- A list of values has the value of each equation at its place. -/
theorem eval_of_linearize_eq_ok {ds : List (Dual F)} (h : s.linearize values = .ok ds) :
    ∃ length : ds.length = s.programs.length, ∀ i : Fin s.programs.length,
      (s.programs.get i).eval values = .ok (ds.get (i.cast length.symm)) := by
  obtain ⟨length, each⟩ := List.forall₂_iff_get.mp (forall₂_of_mapM_eq_ok h)
  exact ⟨length.symm, fun i => each i i.isLt (length ▸ i.isLt)⟩

/-! ### All three -/

/-- **Three ways to evaluate equations.**  Whatever earlier evaluations left on the stack and in the
    buffer, either all three have values, or they fail alike.  The values are the same, and the
    buffer holds them and all partials, with nothing left of what it held; a failure is that of the
    first equation without a value. -/
theorem evaluations_agree (s : Equations F) (x : Vector F n) :
    (∃ l rs, (∀ buffer stack, ((s.linearizeOn x buffer).on stack).1 = .ok l) ∧
      (∀ stack, ((s.residualsOn x.toList).on stack).1 = .ok rs) ∧
      rs.length = s.programs.length ∧
      ∀ i : Fin s.programs.length, ∃ d, (∀ stack, ((s.evalAtOn i x.toList).on stack).1 = .ok d) ∧
        rs[(i : Nat)]? = some d.value ∧ l.residuals.get i = d.value ∧
        (l.jacobian.get i).toList = d.partials) ∨
    ∃ (i : Fin s.programs.length) (e : EvalError F),
      (∀ j < i, ∃ d, ∀ stack, ((s.evalAtOn j x.toList).on stack).1 = .ok d) ∧
      (∀ stack, ((s.evalAtOn i x.toList).on stack).1 = .error e) ∧
      (∀ buffer stack, ((s.linearizeOn x buffer).on stack).1 = .error e) ∧
      ∀ stack, ((s.residualsOn x.toList).on stack).1 = .error e := by
  simp only [outcome_linearizeOn, outcome_residualsOn, outcome_evalAtOn, evalAt_get, forall_const]
  rcases isOk_or_error (s.linearize x.toList) with ⟨ds, hds⟩ | ⟨e, he⟩
  · left
    obtain ⟨length, each⟩ := eval_of_linearize_eq_ok hds
    -- what the buffer holds after it was filled does not depend on what it held before
    obtain ⟨l, hl⟩ := s.exists_foldlM_write (fun i => ⟨_, each i⟩)
      (List.finRange s.programs.length) .blank
    have filled : ∀ buffer, s.residualSystem n x buffer = .ok l := fun buffer =>
      (s.residualSystem_overwrites n x buffer .blank).trans hl
    refine ⟨l, ds.map Dual.value, filled, by rw [residuals, hds]; rfl, by simpa using length, ?_⟩
    intro i
    obtain ⟨d, hd, hrow⟩ := s.residualSystem_eq_ok.mp hl i
    have width : d.partials.length = n := (Program.length_partials hd).trans x.length_toList
    refine ⟨d, hd, ?_, hrow.1, hrow.toList width⟩
    obtain rfl := Except.ok.inj ((each i).symm.trans hd)
    rw [List.getElem?_map, List.getElem?_eq_getElem (length.symm ▸ i.isLt)]
    rfl
  · right
    obtain ⟨i, before, here⟩ := exists_of_linearize_eq_error he
    refine ⟨i, e, before, here, fun buffer => residualSystem_eq_error.mpr he, ?_⟩
    rw [residuals, he]
    rfl

end Equations

end Drafting
