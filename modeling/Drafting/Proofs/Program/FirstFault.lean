import Drafting.Proofs.Formula.Derivative
import Drafting.Proofs.Program.Compiled
import Drafting.Proofs.Result

namespace Drafting

/-!
# The first node that cannot be compiled

A formula cannot be compiled iff one of its nodes is at fault by itself: a name that no variable
has, or a call of nothing that is known, or one with too few or too many arguments.  Instructions
come out when operands are complete, but faults show in the order in which the nodes are written.

* `Formula.nodes` — the nodes of a formula in the order in which they are written;
* `Offends` — the nodes that are at fault, each with what is reported;
* `FailsAs` — computations that fail with the first of some faults;
* `Scope.instructions_failsAs` — the compiler is one of them;
* `Scope.compile_first_fault` — what the compiler reports, and what it emits otherwise.
-/

variable {F : Type}

/-! ### Nodes -/

namespace Formula

mutual

/-- The nodes of a formula: each one before those below it, and these from left to right. -/
def nodes : Formula F → List (Formula F)
  | .number x => [.number x]
  | .symbol name => [.symbol name]
  | .binary op l r => .binary op l r :: (l.nodes ++ r.nodes)
  | .call name args => .call name args :: argumentNodes args

/-- The nodes of formulas one after the other. -/
def argumentNodes : List (Formula F) → List (Formula F)
  | [] => []
  | e :: rest => e.nodes ++ argumentNodes rest

end

/-- The nodes of arguments are those of each of them. -/
theorem mem_argumentNodes {n : Formula F} {args : List (Formula F)} :
    n ∈ argumentNodes args ↔ ∃ a ∈ args, n ∈ a.nodes := by
  induction args with
  | nil => simp [argumentNodes]
  | cons e rest ih => simp [argumentNodes, ih]

/-- The nodes of a formula are its parts. -/
theorem mem_nodes {n e : Formula F} : n ∈ e.nodes ↔ Part n e := by
  induction e using induction with
  | number x => simp [nodes]
  | symbol name => simp [nodes]
  | binary op l r ihl ihr => simp [nodes, ihl, ihr]
  | call name args ih =>
    simp only [nodes, List.mem_cons, mem_argumentNodes, part_call]
    exact or_congr_right (exists_congr fun a => and_congr_right fun ha => ih a ha)

/-- The name that a node is. -/
def symbolName? : Formula F → Option String
  | .symbol name => some name
  | _ => none

/-- The names in a formula, from left to right. -/
def symbols (e : Formula F) : List String := e.nodes.filterMap symbolName?

theorem symbols_binary (op : Operator) (l r : Formula F) :
    (binary op l r).symbols = l.symbols ++ r.symbols := by
  rw [symbols, nodes, List.filterMap_cons_none rfl, List.filterMap_append]
  rfl

theorem symbols_call (name : String) (a : Formula F) : (call name [a]).symbols = a.symbols := by
  rw [symbols, nodes, List.filterMap_cons_none rfl, argumentNodes, argumentNodes, List.append_nil]
  rfl

end Formula

/-- The number of the variable that an instruction loads. -/
def Instruction.loaded? : Instruction F → Option Nat
  | .load i => some i
  | _ => none

/-! ### Nodes at fault -/

/-- A node is at fault by itself, whatever stands below it, for variables with the given names. -/
inductive Offends (names : List String) : Formula F → CompileError → Prop
  /-- No variable has the name as its lower case. -/
  | symbol {name : String} (h : ∀ key ∈ names, Text.lowercase key ≠ name) :
      Offends names (.symbol name) (.unknownVariable name)
  /-- No function has the name. -/
  | function {name : String} {args : List (Formula F)} (h : ∀ f : Function, f.name ≠ name) :
      Offends names (.call name args) (.unknownFunction name)
  /-- The function takes another number of arguments. -/
  | arity {f : Function} {args : List (Formula F)} (h : args.length ≠ f.arity) :
      Offends names (.call f.name args) (.arity f.name f.arity args.length)

namespace Function

/-- A name is unknown iff no function has it. -/
theorem ofName?_eq_none {name : String} : ofName? name = none ↔ ∀ f : Function, f.name ≠ name := by
  constructor
  · rintro h f rfl
    rw [f.ofName?_name] at h
    cases h
  · intro h
    cases hf : ofName? name with
    | none => rfl
    | some f => exact absurd (name_of_ofName? hf) (h f)

end Function

namespace Scope

variable {s : Scope}

/-- What is wrong with a node by itself. -/
def fault? (s : Scope) : Formula F → Option CompileError
  | .number _ | .binary _ _ _ => none
  | .symbol name => if name ∈ s.keys then none else some (.unknownVariable name)
  | .call name args =>
    match Function.ofName? name with
    | none => some (.unknownFunction name)
    | some f => if args.length = f.arity then none else some (.arity name f.arity args.length)

/-- **Faults of a node.**  A node is faulty in itself iff it offends: an unknown name, an unknown
    function, or a wrong number of arguments. -/
theorem fault?_eq_some_iff {names : List String} {n : Formula F} {fault : CompileError} :
    (ofNames names).fault? n = some fault ↔ Offends names n fault := by
  constructor
  · intro h
    cases n with
    | number | binary => cases h
    | symbol name =>
      simp only [fault?, ofNames, List.mem_map, ite_eq_iff, reduceCtorEq, and_false, false_or,
        Option.some.injEq] at h
      obtain ⟨unknown, rfl⟩ := h
      exact .symbol fun key hkey heq => unknown ⟨key, hkey, heq⟩
    | call name args =>
      rw [fault?] at h
      cases hf : Function.ofName? name with
      | none =>
        rw [hf] at h
        obtain rfl := Option.some.inj h
        exact .function (Function.ofName?_eq_none.mp hf)
      | some f =>
        rw [hf] at h
        obtain rfl := Function.name_of_ofName? hf
        dsimp only at h
        split at h
        · cases h
        · next arity =>
          obtain rfl := Option.some.inj h
          exact .arity arity
  · rintro (h | h | h)
    · rw [fault?, if_neg]
      rintro hmem
      obtain ⟨key, hkey, heq⟩ := List.mem_map.mp hmem
      exact h key hkey heq
    · rw [fault?, Function.ofName?_eq_none.mpr h]
    · rw [fault?, Function.ofName?_name]
      exact if_neg h

end Scope

/-! ### Computations that fail with the first of some faults -/

/-- The computation fails iff there is a fault, and then with this one. -/
def FailsAs {ε α : Type} (r : Except ε α) (fault : Option ε) : Prop :=
  ∀ e, r = .error e ↔ fault = some e

namespace FailsAs

variable {ε α β : Type} {r : Except ε α} {fault fault' : Option ε}

theorem ok (x : α) : FailsAs (.ok x : Except ε α) none := fun _ => by simp

theorem error (e : ε) : FailsAs (.error e : Except ε α) (some e) := fun _ => by simp

/-- The first of two faults counts. -/
theorem bind {f : α → Except ε β} (h : FailsAs r fault) (hf : ∀ x, FailsAs (f x) fault') :
    FailsAs (r >>= f) (fault.or fault') := by
  cases r with
  | error e => rw [(h e).mp rfl]; exact error e
  | ok x =>
    have none : fault = none := Option.eq_none_iff_forall_ne_some.mpr fun e he => by
      cases (h e).mpr he
    rw [none]
    exact hf x

/-- What comes last and does not fail. -/
theorem bind_ok {f : α → β} (h : FailsAs r fault) :
    FailsAs (r >>= fun x => .ok (f x)) fault := by
  simpa using h.bind (f := fun x => .ok (f x)) fun x => ok (f x)

end FailsAs

/-! ### The compiler -/

namespace Scope

variable {s : Scope}

/-- **The compiler fails with the first fault of a node.** -/
theorem instructions_failsAs (s : Scope) (e : Formula F) :
    FailsAs (s.instructions e) (e.nodes.findSome? s.fault?) := by
  induction e using Formula.induction with
  | number x => exact .ok _
  | symbol name =>
    by_cases h : name ∈ s.keys
    · obtain ⟨code, hcode⟩ := hasCode_symbol (F := F).mpr h
      rw [hcode]
      simpa [Formula.nodes, fault?, h] using FailsAs.ok code
    · have unknown : s.index? name = none := List.idxOf?_eq_none_iff.mpr h
      rw [instructions, unknown]
      simpa [Formula.nodes, fault?, h] using FailsAs.error _
  | binary op l r ihl ihr =>
    rw [instructions, Formula.nodes, List.findSome?_cons, fault?, List.findSome?_append]
    exact ihl.bind fun _ => ihr.bind_ok
  | call name args ih =>
    have arguments : FailsAs (s.argumentInstructions args)
        ((Formula.argumentNodes args).findSome? s.fault?) := by
      induction args with
      | nil => exact .ok _
      | cons a rest ihrest =>
        obtain ⟨first, others⟩ := List.forall_mem_cons.mp ih
        rw [argumentInstructions, Formula.argumentNodes, List.findSome?_append]
        exact first.bind fun _ => (ihrest others).bind_ok
    -- the call itself comes before its arguments
    rw [instructions, Formula.nodes, List.findSome?_cons, fault?]
    cases Function.ofName? name with
    | none => exact .error _
    | some f =>
      dsimp only
      split
      · exact arguments.bind_ok
      · exact .error _

theorem compile_failsAs (s : Scope) (e : Formula F) :
    FailsAs (s.compile e) (e.nodes.findSome? s.fault?) :=
  (s.instructions_failsAs e).bind_ok

/-- The variables that are loaded are those that the names stand for, in their order. -/
theorem forall₂_loaded {code : List (Instruction F)} {e : Formula F}
    (h : s.instructions e = .ok code) :
    List.Forall₂ (fun name i => s.index? name = some i) e.symbols
      (code.filterMap Instruction.loaded?) := by
  refine compiled_induction (P := fun e code => List.Forall₂ (fun name i => s.index? name = some i)
    e.symbols (code.filterMap Instruction.loaded?)) ?number ?symbol ?binary ?call h
  case number => exact fun _ => .nil
  case symbol => exact fun name i hi => .cons hi .nil
  case binary =>
    intro op l r left right ihl ihr
    rw [Formula.symbols_binary, List.filterMap_append, List.filterMap_append]
    simpa [List.filterMap_cons, Instruction.loaded?] using List.rel_append ihl ihr
  case call =>
    intro name f a argument hf ih
    rw [Formula.symbols_call, List.filterMap_append]
    simpa [List.filterMap_cons, Instruction.loaded?] using ih

/-- A name stands for the first variable that has it as its lower case. -/
theorem index?_ofNames_eq_some_iff {names : List String} {name : String} {i : Nat} :
    (ofNames names).index? name = some i ↔ names[i]?.map Text.lowercase = some name ∧
      ∀ j < i, names[j]?.map Text.lowercase ≠ some name := by
  rw [index?_ofNames, List.findIdx?_eq_some_iff_getElem]
  constructor
  · rintro ⟨hi, hname, hbefore⟩
    refine ⟨by simpa [hi] using hname, fun j hj => ?_⟩
    simpa [hj.trans hi] using hbefore j hj
  · rintro ⟨hname, hbefore⟩
    obtain ⟨key, hkey, rfl⟩ := Option.map_eq_some_iff.mp hname
    obtain ⟨hi, rfl⟩ := List.getElem?_eq_some_iff.mp hkey
    refine ⟨hi, beq_self_eq_true _, fun j hj => ?_⟩
    simpa [hj.trans hi] using hbefore j hj

/-- **Compiling fails at the first node that is at fault.**  There is an error iff some node of the
    formula is at fault by itself, and it is the fault of the first such node in the order in which
    nodes are written: a call before its arguments, and these from left to right.  Otherwise the
    variables that the program loads are those that the names in the formula stand for, one by one:
    each is one of the variables that the program is meant for, and the first one that has the name
    as its lower case. -/
theorem compile_first_fault (names : List String) (e : Formula F) :
    ((∃ fault, (ofNames names).compile e = .error fault) ↔
      ∃ n, Formula.Part n e ∧ ∃ fault, Offends names n fault) ∧
    (∀ fault, (ofNames names).compile e = .error fault ↔
      ∃ before n after, e.nodes = before ++ n :: after ∧
        (∀ n' ∈ before, ∀ fault', ¬ Offends names n' fault') ∧ Offends names n fault) ∧
    ∀ p, (ofNames names).compile e = .ok p → p.variableCount = names.length ∧
      List.Forall₂
        (fun name i => i < p.variableCount ∧ names[i]?.map Text.lowercase = some name ∧
          ∀ j < i, names[j]?.map Text.lowercase ≠ some name)
        e.symbols (p.code.filterMap Instruction.loaded?) := by
  have fails := compile_failsAs (ofNames names) e
  have clean : ∀ n : Formula F,
      (ofNames names).fault? n = none ↔ ∀ fault, ¬ Offends names n fault := by
    intro n
    simp only [← fault?_eq_some_iff, Option.eq_none_iff_forall_ne_some, ne_eq]
  refine ⟨?_, fun fault => ?_, fun p hp => ?_⟩
  · -- there is a first faulty node iff there is one at all
    simp only [fails _, ← Formula.mem_nodes, ← fault?_eq_some_iff, ← Option.isSome_iff_exists,
      List.isSome_findSome?, List.any_eq_true]
  · simp only [fails _, List.findSome?_eq_some_iff, fault?_eq_some_iff, clean, and_comm]
  · -- without an error every load is the result of looking up a name
    obtain ⟨hcode, -⟩ := compile_eq_ok.mp hp
    have count := variableCount_of_compile hp
    refine ⟨count, (forall₂_loaded hcode).imp fun name i hi => ?_⟩
    rw [count]
    have inside : i < names.length := by
      rw [index?_ofNames, List.findIdx?_eq_some_iff_getElem] at hi
      exact hi.1
    exact ⟨inside, index?_ofNames_eq_some_iff.mp hi⟩

/-- In `x * sin(q, foo(1)) / bar()` the call of `sin` comes before its arguments and before that of
    `bar`. -/
def manyFaults : Formula Float :=
  .binary .div
    (.binary .mul (.symbol "x") (.call "sin" [.symbol "q", .call "foo" [.number 1]]))
    (.call "bar" [])

/-- `sin(x) - y`. -/
def noFault : Formula Float := .binary .sub (.call "sin" [.symbol "x"]) (.symbol "y")

/-- Many faults, of which the first in the order of writing is reported, and the formula without
    them. -/
theorem compile_first_fault_manyFaults :
    (ofNames ["Y", "X", "x"]).compile manyFaults = .error (.arity "sin" 1 2) ∧
      ∃ p, (ofNames ["Y", "X", "x"]).compile noFault = .ok p ∧ p.variableCount = 3 ∧
        noFault.symbols = ["x", "y"] ∧ p.code.filterMap Instruction.loaded? = [1, 0] ∧
        List.Forall₂
          (fun name i => i < p.variableCount ∧
            ["Y", "X", "x"][i]?.map Text.lowercase = some name ∧
            ∀ j < i, ["Y", "X", "x"][j]?.map Text.lowercase ≠ some name)
          noFault.symbols (p.code.filterMap Instruction.loaded?) := by
  obtain ⟨-, faults, -⟩ := compile_first_fault ["Y", "X", "x"] manyFaults
  obtain ⟨-, -, loads⟩ := compile_first_fault ["Y", "X", "x"] noFault
  have compiled : (ofNames ["Y", "X", "x"]).compile noFault =
      .ok ⟨[.load 1, .call .sin, .load 0, .binary .sub], 3⟩ := rfl
  obtain ⟨count, places⟩ := loads _ compiled
  refine ⟨(faults _).mpr ?_, _, compiled, count, rfl, rfl, places⟩
  -- in front of the call there are the two operations and `x`
  have known : ∀ fault', ¬ Offends ["Y", "X", "x"] (.symbol "x" : Formula Float) fault' := by
    rintro _ ⟨h⟩
    exact h "X" (by simp) (by decide)
  have operation : ∀ op (l r : Formula Float) fault',
      ¬ Offends ["Y", "X", "x"] (.binary op l r) fault' := nofun
  refine ⟨[_, _, .symbol "x"], _, _, rfl, ?_, .arity (f := .sin) (by decide)⟩
  simp only [List.mem_cons, List.not_mem_nil, or_false]
  rintro n' (rfl | rfl | rfl)
  · exact operation _ _ _
  · exact operation _ _ _
  · exact known

end Scope

end Drafting
