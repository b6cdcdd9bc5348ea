import Drafting.Binary64
import Drafting.Program.SharedStack
import Drafting.Proofs.LeastSquares.Rows

namespace Drafting

/-!
# The machine on any code, and on any stack

Code that nobody compiled may take more operands than there are, load variables that do not exist,
or raise to powers that are not supported.  Exponents apart, all that decides about this is how many
values are on the stack.  Every dual on the stack has as many partials as there are variables,
whatever the code is, and what was on the stack before does not matter.

* `OnStack.reached` — work that is only looked at if it succeeds;
* `OnStack.Keeps` — what work keeps on a stack, also if it fails;
* `Instruction.reached_executeOn`, `Program.outcome_evalOn` — the same results as on an own stack;
* `Instruction.needs`, `Instruction.depth`, `Instruction.Fault` — what instructions ask for;
* `Instruction.length_step`, `Instruction.step_eq_error` — one instruction;
* `Instruction.executeOn_safe` — all code.
-/

variable {F α β : Type}

/-! ### Work on a stack -/

namespace OnStack

variable {work : OnStack F α} {f : α → OnStack F β} {stack s : Stack F} {a : α} {e : EvalError F}

/-- Work in two parts: the second goes on from where the first has left the stack. -/
theorem on_bind : (work >>= f).on stack =
    match work.on stack with
    | (.ok a, s) => (f a).on s
    | (.error e, s) => (.error e, s) := by
  show Id.run ((ExceptT.bindCont f (work.on stack).1).run (work.on stack).2) = _
  obtain ⟨_ | a, s⟩ := work.on stack <;> rfl

/-- What work comes to and the stack afterwards, if it succeeds. -/
def reached (work : OnStack F α) (stack : Stack F) : Except (EvalError F) (α × Stack F) :=
  match work.on stack with
  | (.ok a, s) => .ok (a, s)
  | (.error e, _) => .error e

theorem reached_bind : (work >>= f).reached stack =
    work.reached stack >>= fun r => (f r.1).reached r.2 := by
  rw [reached, on_bind, reached]
  obtain ⟨_ | a, s⟩ := work.on stack <;> rfl

theorem reached_eq_ok : work.reached stack = .ok (a, s) ↔ work.on stack = (.ok a, s) := by
  rw [reached]
  obtain ⟨_ | b, s'⟩ := work.on stack <;> simp

theorem outcome_eq : (work.on stack).1 = (work.reached stack).map Prod.fst := by
  rw [reached]
  obtain ⟨_ | b, s'⟩ := work.on stack <;> rfl

/-- Values with `P` remain on the stack, also where the work fails; what it comes to has `Q`. -/
def Keeps (P : Value F → Prop) (Q : α → Prop) (work : OnStack F α) : Prop :=
  ∀ stack, (∀ v ∈ stack, P v) →
    (∀ v ∈ (work.on stack).2, P v) ∧ ∀ a, (work.on stack).1 = .ok a → Q a

variable {P : Value F → Prop} {Q : α → Prop} {R : β → Prop}

/-- Work in two parts keeps what both parts keep. -/
theorem Keeps.bind (h : Keeps P Q work) (hf : ∀ a, Q a → Keeps P R (f a)) :
    Keeps P R (work >>= f) := by
  intro stack hstack
  obtain ⟨kept, result⟩ := h stack hstack
  rw [on_bind]
  cases hwork : work.on stack with
  | mk outcome s =>
    rw [hwork] at kept result
    cases outcome with
    | error e => exact ⟨kept, nofun⟩
    | ok a => exact hf a (result a rfl) s kept

theorem keeps_throw : Keeps P Q (throw e) := fun _ hstack => ⟨hstack, nofun⟩

theorem keeps_push {v : Value F} (hv : P v) : Keeps P (fun _ => True) (push v) :=
  fun _ hstack => ⟨List.forall_mem_cons.mpr ⟨hv, hstack⟩, fun _ _ => trivial⟩

/-- What holds of all values on the stack holds of the one taken off and of those left. -/
theorem keeps_pop : Keeps P P pop := by
  rintro (_ | ⟨v, rest⟩) hstack
  · exact ⟨hstack, nofun⟩
  · obtain ⟨hv, hrest⟩ := List.forall_mem_cons.mp hstack
    refine ⟨hrest, ?_⟩
    rintro w ⟨⟩
    exact hv

end OnStack

variable [Scalar F]

/-! ### The same results as on an own stack -/

namespace Instruction

open OnStack

variable {values : List F} {stack : Stack F}

/-- One instruction on the shared stack reaches what it reaches on the list of its values. -/
theorem reached_stepOn (i : Instruction F) :
    (i.stepOn values).reached stack = (i.step values stack).map fun s => ((), s) := by
  cases i with
  | constant x => rfl
  | load k =>
    simp only [stepOn, step]
    cases values[k]? <;> rfl
  | binary op =>
    simp only [stepOn, step]
    rcases stack with _ | ⟨right, _ | ⟨left, rest⟩⟩
    · rfl
    · rfl
    · rw [reached_bind]
      show (pop >>= _ : OnStack F Unit).reached (left :: rest) = _
      rw [reached_bind]
      show OnStack.reached _ rest = _
      dsimp only
      cases op.apply left right <;> rfl
  | call f => cases stack <;> rfl

/-- A program on the shared stack comes to what it comes to on an empty stack of its own. -/
theorem reached_runOn (code : List (Instruction F)) :
    (runOn values code).reached stack = (run values code []).map fun s => ((), s) := by
  have each : ∀ stack, (code.forM (stepOn values)).reached stack =
      (run values code stack).map fun s => ((), s) := by
    induction code with
    | nil => exact fun _ => rfl
    | cons i rest ih =>
      intro stack
      show (i.stepOn values >>= fun _ => rest.forM (stepOn values)).reached stack = _
      rw [reached_bind, reached_stepOn, run_cons]
      cases i.step values stack with
      | error e => rfl
      | ok s => exact ih s
  exact each []

/-- **The result** is that of a run on a stack of its own, and so is what is left below. -/
theorem reached_executeOn (code : List (Instruction F)) :
    (executeOn values code).reached stack = execute values code := by
  rw [executeOn, reached_bind, reached_runOn, execute]
  cases run values code [] with
  | error e => rfl
  | ok s => cases s <;> rfl

/-! ### The number of partials -/

/-- One instruction keeps the number of partials of all that is on the shared stack. -/
theorem keeps_stepOn (i : Instruction F) :
    Keeps (·.HasWidth values.length) (fun _ => True) (i.stepOn values) := by
  cases i with
  | constant x => exact keeps_push (Value.hasWidth_number x)
  | load k =>
    simp only [stepOn]
    cases values[k]? with
    | none => exact keeps_throw
    | some x => exact keeps_push (Dual.length_seed x k values.length)
  | binary op =>
    refine keeps_pop.bind fun right hright => keeps_pop.bind fun left hleft => ?_
    cases happly : op.apply left right with
    | error e => exact keeps_throw
    | ok v => exact keeps_push (Operator.hasWidth_apply hleft hright happly)
  | call f => exact keeps_pop.bind fun v hv => keeps_push (Function.hasWidth_apply f hv)

/-- Whatever was on the stack before, each dual that the code puts there has all its partials. -/
theorem hasWidth_runOn (code : List (Instruction F)) :
    ∀ v ∈ ((runOn values code).on stack).2, v.HasWidth values.length := by
  have each : Keeps (·.HasWidth values.length) (fun _ => True) (code.forM (stepOn values)) := by
    induction code with
    | nil => exact fun _ hstack => ⟨hstack, fun _ _ => trivial⟩
    | cons i rest ih => exact (keeps_stepOn i).bind fun _ _ => ih
  exact (each [] nofun).1

/-! ### What instructions ask for -/

omit [Scalar F] in
/-- How many values an instruction takes off the stack. -/
def needs : Instruction F → Nat
  | .constant _ | .load _ => 0
  | .binary _ => 2
  | .call _ => 1

/-- How many values are on the stack behind some code: each instruction puts one. -/
def depth (code : List (Instruction F)) : Nat := code.foldl (fun d i => d - i.needs + 1) 0

/-- Why an instruction cannot be carried out on a stack. -/
inductive Fault (values : List F) : Stack F → Instruction F → EvalError F → Prop where
  /-- There are fewer values than it takes. -/
  | operands {stack i} (h : stack.length < i.needs) : Fault values stack i .stackUnderflow
  /-- There is no such variable. -/
  | unknown {stack k} (h : values.length ≤ k) :
    Fault values stack (.load k) (.argumentCount (k + 1) values.length)
  /-- The exponent depends on a variable. -/
  | variableExponent {d base rest} :
    Fault values (.dual d :: base :: rest) (.binary .pow) (.power .variableExponent)
  /-- The base depends on a variable, and the exponent is not whole. -/
  | fractionalExponent {x d rest} (h : Scalar.isWhole x = false) :
    Fault values (.number x :: .dual d :: rest) (.binary .pow) (.power (.fractionalExponent x))

/-- An instruction takes what it needs and puts one value. -/
theorem length_step {i : Instruction F} {s : Stack F} (h : i.step values stack = .ok s) :
    s.length = stack.length - i.needs + 1 := by
  cases i with
  | constant x =>
    obtain rfl := Except.ok.inj h
    rfl
  | load k =>
    simp only [step] at h
    split at h
    · obtain rfl := Except.ok.inj h
      rfl
    · cases h
  | binary op =>
    simp only [step] at h
    split at h
    · split at h
      · obtain rfl := Except.ok.inj h
        rfl
      · cases h
    · cases h
  | call f =>
    simp only [step] at h
    split at h
    · obtain rfl := Except.ok.inj h
      rfl
    · cases h

/-- **The depth** is that of the stack. -/
theorem length_run {code : List (Instruction F)} {s : Stack F} (h : run values code stack = .ok s) :
    s.length = code.foldl (fun d i => d - i.needs + 1) stack.length := by
  induction code generalizing stack with
  | nil =>
    obtain rfl := Except.ok.inj h
    rfl
  | cons i rest ih =>
    rw [run_cons] at h
    obtain ⟨next, hnext, h⟩ := bind_eq_ok.mp h
    rw [List.foldl_cons, ← length_step hnext]
    exact ih h

/-- Among operators only powers fail. -/
theorem Fault.of_apply {op : Operator} {left right : Value F} {rest : Stack F} {e : PowerError F}
    (h : op.apply left right = .error e) :
    Fault values (right :: left :: rest) (.binary op) (.power e) := by
  cases op with
  | pow =>
    have h : Value.power left right = .error e := h
    unfold Value.power at h
    split at h
    · obtain rfl := Except.error.inj h
      exact .variableExponent
    · cases h
    · split at h
      · cases h
      · next hwhole =>
        obtain rfl := Except.error.inj h
        exact .fractionalExponent (Bool.eq_false_iff.mpr hwhole)
  | _ => cases h

/-- An instruction that fails has a fault. -/
theorem Fault.of_step {i : Instruction F} {e : EvalError F} (h : i.step values stack = .error e) :
    i.Fault values stack e := by
  cases i with
  | constant x => cases h
  | load k =>
    simp only [step] at h
    split at h
    · cases h
    · next hx =>
      obtain rfl := Except.error.inj h
      exact .unknown (List.getElem?_eq_none_iff.mp hx)
  | binary op =>
    simp only [step] at h
    rcases stack with _ | ⟨right, _ | ⟨left, rest⟩⟩
    · obtain rfl := Except.error.inj h
      exact .operands Nat.two_pos
    · obtain rfl := Except.error.inj h
      exact .operands Nat.one_lt_two
    · dsimp only at h
      split at h
      · cases h
      · next happly =>
        obtain rfl := Except.error.inj h
        exact .of_apply happly
  | call f =>
    cases stack with
    | nil =>
      obtain rfl := Except.error.inj h
      exact .operands Nat.one_pos
    | cons v rest => cases h

/-- An instruction with too few operands fails. -/
theorem step_of_length_lt {i : Instruction F} (h : stack.length < i.needs) :
    i.step values stack = .error .stackUnderflow := by
  cases i with
  | constant | load => exact absurd h (Nat.not_lt_zero _)
  | binary op =>
    rcases stack with _ | ⟨right, _ | ⟨left, rest⟩⟩
    · rfl
    · rfl
    · exact absurd h (Nat.not_lt.mpr (Nat.le_add_left 2 rest.length))
  | call f =>
    cases stack with
    | nil => rfl
    | cons v rest => exact absurd h (Nat.not_lt.mpr (Nat.le_add_left 1 rest.length))

/-- An instruction fails where it has a fault, and nowhere else. -/
theorem step_eq_error {i : Instruction F} {e : EvalError F} :
    i.step values stack = .error e ↔ i.Fault values stack e := by
  refine ⟨.of_step, fun h => ?_⟩
  cases h with
  | operands h => exact step_of_length_lt h
  | unknown h => simp [step, List.getElem?_eq_none h]
  | variableExponent => simp [step, Operator.apply, Value.power]
  | fractionalExponent h => simp [step, Operator.apply, Value.power, h]

/-- Code fails at the first instruction that has a fault. -/
theorem run_eq_error {code : List (Instruction F)} {e : EvalError F} :
    run values code stack = .error e ↔ ∃ front i back s, code = front ++ i :: back ∧
      run values front stack = .ok s ∧ i.Fault values s e := by
  simp only [run, foldlM_eq_error, step_eq_error]

/-! ### All code -/

/-- The first instruction of the code that has a fault has this one. -/
def FirstFault (values : List F) (stack : Stack F) (code : List (Instruction F))
    (e : EvalError F) : Prop :=
  ∃ front i back s, code = front ++ i :: back ∧
    (runOn values front).on stack = (.ok (), s) ∧ i.Fault values s e

theorem runOn_eq_ok {code : List (Instruction F)} {s : Stack F} :
    (runOn values code).on stack = (.ok (), s) ↔ run values code [] = .ok s := by
  rw [← reached_eq_ok, reached_runOn, map_eq_ok]
  simp

theorem firstFault_iff {code : List (Instruction F)} {e : EvalError F} :
    FirstFault values stack code e ↔ run values code [] = .error e := by
  simp only [FirstFault, runOn_eq_ok, run_eq_error]

/-- **The machine is safe on all code**, whatever was on the stack before.  Behind each front of the
    code, also where it fails, the duals on the stack have as many partials as there are variables,
    and there are as many values as the instructions so far have left.  The run fails as the first
    instruction that has a fault; if none has one, then there is a result unless the code left
    nothing, and the other values stay below it. -/
theorem executeOn_safe (values : List F) (code : List (Instruction F)) (stack : Stack F) :
    (∀ front, front <+: code →
      (∀ v ∈ ((runOn values front).on stack).2, v.HasWidth values.length) ∧
      ∀ s, (runOn values front).on stack = (.ok (), s) → s.length = depth front) ∧
    (∀ e, FirstFault values stack code e → ((executeOn values code).on stack).1 = .error e) ∧
    ((∀ e, ¬ FirstFault values stack code e) →
      (depth code = 0 → ((executeOn values code).on stack).1 = .error .stackUnderflow) ∧
      (1 ≤ depth code → ∃ v below, (executeOn values code).on stack = (.ok v, below) ∧
        v.HasWidth values.length ∧ below.length = depth code - 1)) := by
  refine ⟨fun front _ => ⟨hasWidth_runOn front, fun s hs => length_run (runOn_eq_ok.mp hs)⟩, ?_, ?_⟩
  · intro e hfault
    rw [outcome_eq, reached_executeOn, execute, firstFault_iff.mp hfault]
    rfl
  · intro hnone
    obtain ⟨s, hrun⟩ := (isOk_or_error (run values code [])).resolve_right
      fun ⟨e, he⟩ => hnone e (firstFault_iff.mpr he)
    have length : s.length = depth code := length_run hrun
    have wide := hasWidth_run (fun _ hv => absurd hv List.not_mem_nil) hrun
    -- the result is the top of what the code leaves on an empty stack
    have result : (executeOn values code).reached stack = _ := reached_executeOn code
    rw [execute, hrun] at result
    cases s with
    | nil =>
      refine ⟨fun _ => by rw [outcome_eq, result]; rfl, fun hdepth => ?_⟩
      rw [← length] at hdepth
      exact absurd hdepth (Nat.not_succ_le_zero 0)
    | cons v below =>
      refine ⟨fun hdepth => ?_, fun _ => ⟨v, below, reached_eq_ok.mp result, ?_, ?_⟩⟩
      · exact absurd (length.trans hdepth) (Nat.succ_ne_zero _)
      · exact wide v List.mem_cons_self
      · rw [← length]
        rfl

/-- A sum with one operand, in front of a variable that does not exist. -/
def lonelySum : List (Instruction Float) :=
  [.load 0, .call .neg, .binary .add, .load 7]

/-- A number that nothing takes, and a product. -/
def productAboveNumber : List (Instruction Float) :=
  [.constant 3, .load 0, .load 1, .binary .mul]

/-- A stack that holds a dual without partials. -/
def narrowStack : Stack Float := [.dual ⟨5, []⟩]

/-- The sum fails; of the other run a number is left below the product. -/
theorem executeOn_safe_narrowStack :
    ((executeOn [1, 2] lonelySum).on narrowStack).1 = .error .stackUnderflow ∧
      ∃ v below, (executeOn [1, 2] productAboveNumber).on narrowStack = (.ok v, below) ∧
        v.HasWidth 2 ∧ below.length = 1 := by
  have fault : FirstFault [1, 2] narrowStack lonelySum .stackUnderflow :=
    ⟨[.load 0, .call .neg], .binary .add, [.load 7], _, rfl, rfl, .operands (by decide)⟩
  have none (e) : ¬ FirstFault [1, 2] narrowStack productAboveNumber e := by
    rw [firstFault_iff]
    nofun
  exact ⟨(executeOn_safe _ _ _).2.1 _ fault, ((executeOn_safe _ _ _).2.2 none).2 (by decide)⟩

end Instruction

/-- **A program's value** does not depend on the stack it is lent. -/
theorem Program.outcome_evalOn (p : Program F) (values : List F) (stack : Stack F) :
    ((p.evalOn values).on stack).1 = p.eval values := by
  rw [OnStack.outcome_eq, evalOn, eval]
  split
  · rw [OnStack.reached_bind, Instruction.reached_executeOn]
    cases Instruction.execute values p.code <;> rfl
  · rfl

end Drafting
