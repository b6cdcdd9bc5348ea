import Drafting.Proofs.Dual.Width
import Drafting.Proofs.LeastSquares.Plain

namespace Drafting

/-!
# Equations overwrite the rows of a buffer

Whatever its instructions are, a program that has a value at `n` numbers has `n` partials there.  So
the rows of all equations fill a buffer, and nothing of what it held is left.

* `Program.length_partials` — the partials of a program;
* `Equations.residualSystem_overwrites` — equations as a system of residuals;
* `Equations.residualSystem_eq_ok` — what its linearizations hold.
-/

variable {F : Type}

/-! ### The rows of a buffer -/

namespace Linearization

variable {m n : Nat} {b b' : Linearization F m n} {i j : Fin m} {d : Dual F}

/-- Two buffers have the same row `i`. -/
def SameRow (b b' : Linearization F m n) (i : Fin m) : Prop :=
  b.residuals.get i = b'.residuals.get i ∧ b.jacobian.get i = b'.jacobian.get i

/-- Linearizations are the same if their rows are. -/
theorem ext_row (h : ∀ i, b.SameRow b' i) : b = b' := by
  obtain ⟨residuals, jacobian⟩ := b
  obtain ⟨residuals', jacobian'⟩ := b'
  obtain rfl : residuals = residuals' := ext_get fun i => (h i).1
  obtain rfl : jacobian = jacobian' := ext_get fun i => (h i).2
  rfl

/-- A dual with all partials fills its row. -/
theorem sameRow_write_self (hd : d.partials.length = n) :
    (b.write i d).SameRow (b'.write i d) i := by
  constructor
  · simp [write, get_set]
  · simp only [write, get_set, if_true]
    refine ext_get fun k => ?_
    have bound : (k : Nat) < d.partials.length := hd ▸ k.isLt
    simp [List.getElem?_eq_getElem bound]

/-- The other rows are what they were. -/
theorem sameRow_write_of_ne (h : b.SameRow b' j) (hne : i ≠ j) :
    (b.write i d).SameRow (b'.write i d) j := by
  simpa [SameRow, write, get_set, hne] using h

/-- Row `i` holds a value and its partials. -/
def HasRow (b : Linearization F m n) (i : Fin m) (d : Dual F) : Prop :=
  b.residuals.get i = d.value ∧ ∀ j : Fin n, d.partials[(j : Nat)]? = some (b.jacobian.entry i j)

theorem HasRow.sameRow (h : b.HasRow i d) (h' : b'.HasRow i d) : b.SameRow b' i := by
  refine ⟨h.1.trans h'.1.symm, ext_get fun j => ?_⟩
  exact Option.some.inj ((h.2 j).symm.trans (h'.2 j))

theorem SameRow.hasRow (h : b.SameRow b' i) (h' : b'.HasRow i d) : b.HasRow i d := by
  refine ⟨h.1.trans h'.1, fun j => ?_⟩
  rw [h'.2 j, Mat.entry, Mat.entry, h.2]

theorem hasRow_write (hd : d.partials.length = n) : (b.write i d).HasRow i d := by
  refine ⟨by simp [write, get_set], fun j => ?_⟩
  have bound : (j : Nat) < d.partials.length := hd ▸ j.isLt
  simp [write, Mat.entry, get_set, List.getElem?_eq_getElem bound]

theorem sameRow_write (hne : i ≠ j) : (b.write i d).SameRow b j := by
  simp [SameRow, write, get_set, hne]

end Linearization

variable [Scalar F]

/-! ### The partials of a program -/

namespace Instruction

variable {values : List F} {stack stack' : Stack F}

/-- An instruction keeps the number of partials on the stack: constants have none, a variable has
    one for each value. -/
theorem hasWidth_step {i : Instruction F} (h : ∀ v ∈ stack, v.HasWidth values.length)
    (hstep : i.step values stack = .ok stack') : ∀ v ∈ stack', v.HasWidth values.length := by
  cases i with
  | constant x =>
    obtain rfl := Except.ok.inj hstep
    exact List.forall_mem_cons.mpr ⟨Value.hasWidth_number x, h⟩
  | load i =>
    simp only [step] at hstep
    cases hx : values[i]? with
    | none => rw [hx] at hstep; cases hstep
    | some x =>
      rw [hx] at hstep
      obtain rfl := Except.ok.inj hstep
      exact List.forall_mem_cons.mpr ⟨Dual.length_seed x i values.length, h⟩
  | binary op =>
    simp only [step] at hstep
    split at hstep
    · next right left rest =>
      obtain ⟨hright, h⟩ := List.forall_mem_cons.mp h
      obtain ⟨hleft, h⟩ := List.forall_mem_cons.mp h
      cases happly : op.apply left right with
      | error e => rw [happly] at hstep; cases hstep
      | ok v =>
        rw [happly] at hstep
        obtain rfl := Except.ok.inj hstep
        exact List.forall_mem_cons.mpr ⟨Operator.hasWidth_apply hleft hright happly, h⟩
    · cases hstep
  | call f =>
    simp only [step] at hstep
    split at hstep
    · next v rest =>
      obtain ⟨hv, h⟩ := List.forall_mem_cons.mp h
      obtain rfl := Except.ok.inj hstep
      exact List.forall_mem_cons.mpr ⟨Function.hasWidth_apply f hv, h⟩
    · cases hstep

theorem hasWidth_run {code : List (Instruction F)} (h : ∀ v ∈ stack, v.HasWidth values.length)
    (hrun : run values code stack = .ok stack') : ∀ v ∈ stack', v.HasWidth values.length :=
  foldlM_keeps (P := fun stack : Stack F => ∀ v ∈ stack, v.HasWidth values.length)
    (fun _ _ _ _ => hasWidth_step) h hrun

end Instruction

/-- A program has a partial for each number it is run on. -/
theorem Program.length_partials {p : Program F} {values : List F} {d : Dual F}
    (h : p.eval values = .ok d) : d.partials.length = values.length := by
  unfold eval at h
  split at h
  · next hlen =>
    obtain ⟨⟨v, rest⟩, hexecute, h⟩ := bind_eq_ok.mp h
    obtain ⟨stack, hrun, hexecute⟩ := bind_eq_ok.mp hexecute
    have wide := Instruction.hasWidth_run (fun _ hv => absurd hv List.not_mem_nil) hrun
    cases stack with
    | nil => cases hexecute
    | cons w below =>
      cases hexecute
      obtain rfl := Except.ok.inj h
      rw [← hlen]
      exact (wide v List.mem_cons_self).length_toDual
  · cases h

/-! ### Equations -/

/-- The rows that are still to be written may differ. -/
theorem Equations.foldlM_write_congr (s : Equations F) {n : Nat} (x : Vector F n)
    {is : List (Fin s.programs.length)} {b b' : Linearization F s.programs.length n}
    (h : ∀ i, i ∉ is → b.SameRow b' i) :
    is.foldlM (fun l i => return l.write i (← (s.programs.get i).eval x.toList)) b =
      is.foldlM (fun l i => return l.write i (← (s.programs.get i).eval x.toList)) b' := by
  induction is generalizing b b' with
  | nil => rw [Linearization.ext_row fun i => h i List.not_mem_nil]
  | cons i is ih =>
    rw [List.foldlM_cons, List.foldlM_cons]
    cases hd : (s.programs.get i).eval x.toList with
    | error e => rfl
    | ok d =>
      have width : d.partials.length = n := (Program.length_partials hd).trans x.length_toList
      refine ih fun j hj => ?_
      by_cases hij : i = j
      · subst hij
        exact Linearization.sameRow_write_self width
      · have before : j ∉ i :: is := fun hmem =>
          (List.mem_cons.mp hmem).elim (fun heq => hij heq.symm) hj
        exact Linearization.sameRow_write_of_ne (h j before) hij

/-- **Equations overwrite a buffer.** -/
theorem Equations.residualSystem_overwrites (s : Equations F) (n : Nat) :
    (s.residualSystem n).Overwrites := fun x _ _ =>
  s.foldlM_write_congr x fun i hi => absurd (List.mem_finRange i) hi

/-- The rows that are written hold what their programs come to, and the others stay. -/
theorem Equations.of_foldlM_write (s : Equations F) {n : Nat} {x : Vector F n}
    {is : List (Fin s.programs.length)} {b l : Linearization F s.programs.length n}
    (h : is.foldlM (fun l i => return l.write i (← (s.programs.get i).eval x.toList)) b = .ok l)
    (i : Fin s.programs.length) :
    (i ∈ is → ∃ d, (s.programs.get i).eval x.toList = .ok d ∧ l.HasRow i d) ∧
      (i ∉ is → l.SameRow b i) := by
  induction is generalizing b with
  | nil =>
    obtain rfl := Except.ok.inj h
    exact ⟨nofun, fun _ => ⟨rfl, rfl⟩⟩
  | cons k is ih =>
    rw [List.foldlM_cons] at h
    obtain ⟨b', hwrite, h⟩ := bind_eq_ok.mp h
    obtain ⟨d, hd, hwrite⟩ := bind_eq_ok.mp hwrite
    obtain rfl := Except.ok.inj hwrite
    obtain ⟨written, kept⟩ := ih h
    have width : d.partials.length = n := (Program.length_partials hd).trans x.length_toList
    constructor
    · intro hi
      -- a row that is listed twice holds what is written last, which is the same
      by_cases later : i ∈ is
      · exact written later
      · obtain rfl := (List.mem_cons.mp hi).resolve_right later
        exact ⟨d, hd, (kept later).hasRow (Linearization.hasRow_write width)⟩
    · intro hi
      obtain ⟨hne, later⟩ := not_or.mp (mt List.mem_cons.mpr hi)
      have before := Linearization.sameRow_write (b := b) (d := d) (Ne.symm hne)
      exact ⟨(kept later).1.trans before.1, (kept later).2.trans before.2⟩

/-- Where all programs have a value, all rows are written. -/
theorem Equations.exists_foldlM_write (s : Equations F) {n : Nat} {x : Vector F n}
    (h : ∀ i, ∃ d, (s.programs.get i).eval x.toList = .ok d) (is : List (Fin s.programs.length))
    (b : Linearization F s.programs.length n) :
    ∃ l, is.foldlM (fun l i => return l.write i (← (s.programs.get i).eval x.toList)) b =
      .ok l := by
  induction is generalizing b with
  | nil => exact ⟨b, rfl⟩
  | cons k is ih =>
    obtain ⟨d, hd⟩ := h k
    obtain ⟨l, hl⟩ := ih (b.write k d)
    exact ⟨l, by rw [List.foldlM_cons, hd]; exact hl⟩

/-- **The linearization of equations** holds the value of each program and its partials. -/
theorem Equations.residualSystem_eq_ok (s : Equations F) {n : Nat} {x : Vector F n}
    {b l : Linearization F s.programs.length n} :
    s.residualSystem n x b = .ok l ↔
      ∀ i, ∃ d, (s.programs.get i).eval x.toList = .ok d ∧ l.HasRow i d := by
  constructor
  · intro h i
    exact (s.of_foldlM_write h i).1 (List.mem_finRange i)
  · intro h
    obtain ⟨l', hl'⟩ := s.exists_foldlM_write (fun i => (h i).imp fun _ hd => hd.1)
      (List.finRange s.programs.length) b
    refine Eq.trans hl' (congrArg Except.ok (Linearization.ext_row fun i => ?_))
    obtain ⟨d, hd, hrow⟩ := h i
    obtain ⟨d', hd', hrow'⟩ := (s.of_foldlM_write hl' i).1 (List.mem_finRange i)
    obtain rfl := Except.ok.inj (hd.symm.trans hd')
    exact hrow'.sameRow hrow

end Drafting
