import Drafting.Program.Compile

namespace Drafting.Scope

/-!
# Formulas that compile

What a formula is made of if it compiles, and its instructions.  Every name in it is a variable's,
and every call is one of a known function with one argument.

* `Scope.compiled_induction` — induction over formulas that compile, with their instructions;
* `Scope.HasCode` — the formulas that compile, node by node.
-/

variable {F : Type} {s : Scope} {code : List (Instruction F)}

/-- The first variable with a name, looked for among the names as they are given. -/
theorem index?_ofNames (names : List String) (name : String) :
    (ofNames names).index? name = names.findIdx? (Text.lowercase · == name) := by
  rw [index?, ofNames, List.idxOf?, List.findIdx?_map]
  rfl

/-- The code of a symbol loads its variable. -/
theorem instructions_symbol {name : String}
    (h : s.instructions (.symbol name : Formula F) = .ok code) :
    ∃ i, s.index? name = some i ∧ code = [.load i] := by
  rw [instructions] at h
  cases hi : s.index? name with
  | none => simp [hi] at h
  | some i => exact ⟨i, rfl, by simpa [hi] using h.symm⟩

/-- The code of an operation is that of its operands and the operator behind them. -/
theorem instructions_binary {op : Operator} {l r : Formula F}
    (h : s.instructions (.binary op l r) = .ok code) :
    ∃ left right, s.instructions l = .ok left ∧ s.instructions r = .ok right ∧
      code = left ++ right ++ [.binary op] := by
  rw [instructions] at h
  cases hl : s.instructions l with
  | error e => rw [hl] at h; cases h
  | ok left =>
    cases hr : s.instructions r with
    | error e => rw [hl, hr] at h; cases h
    | ok right =>
      rw [hl, hr] at h
      exact ⟨left, right, rfl, rfl, (Except.ok.inj h).symm⟩

/-- A call has code only if it is a known function of one argument; it is that of the argument and
    the function behind it. -/
theorem instructions_call {name : String} {args : List (Formula F)}
    (h : s.instructions (.call name args) = .ok code) :
    ∃ f a argument, Function.ofName? name = some f ∧ args = [a] ∧
      s.instructions a = .ok argument ∧ code = argument ++ [.call f] := by
  rw [instructions] at h
  cases hf : Function.ofName? name with
  | none => simp [hf] at h
  | some f =>
    simp only [hf] at h
    split at h
    · rename_i arity
      obtain ⟨a, rfl⟩ := List.length_eq_one_iff.mp arity
      simp only [argumentInstructions] at h
      cases ha : s.instructions a with
      | error e => rw [ha] at h; cases h
      | ok argument =>
        rw [ha] at h
        refine ⟨f, a, argument, rfl, rfl, ha, ?_⟩
        exact (Except.ok.inj h).symm.trans (by simp)
    · cases h

/-- Induction over formulas that compile.  The cases are the kinds of nodes, each with the code that
    comes out for it. -/
theorem compiled_induction {P : Formula F → List (Instruction F) → Prop}
    (number : ∀ x, P (.number x) [.constant x])
    (symbol : ∀ name i, s.index? name = some i → P (.symbol name) [.load i])
    (binary : ∀ op l r left right, P l left → P r right →
      P (.binary op l r) (left ++ right ++ [.binary op]))
    (call : ∀ name f a argument, Function.ofName? name = some f → P a argument →
      P (.call name [a]) (argument ++ [.call f]))
    {e : Formula F} (h : s.instructions e = .ok code) : P e code := by
  induction e using Formula.induction generalizing code with
  | number x =>
    rw [instructions] at h
    exact Except.ok.inj h ▸ number x
  | symbol name =>
    obtain ⟨i, hi, rfl⟩ := instructions_symbol h
    exact symbol name i hi
  | binary op l r ihl ihr =>
    obtain ⟨left, right, hl, hr, rfl⟩ := instructions_binary h
    exact binary op l r left right (ihl hl) (ihr hr)
  | call name args ih =>
    obtain ⟨f, a, argument, hf, rfl, ha, rfl⟩ := instructions_call h
    exact call name f a argument hf (ih a (List.mem_singleton_self a) ha)

/-! ### Which formulas compile -/

/-- A formula that has instructions. -/
def HasCode (s : Scope) (e : Formula F) : Prop := ∃ code, s.instructions e = .ok code

@[simp] theorem hasCode_number (x : F) : s.HasCode (.number x) := ⟨_, rfl⟩

/-- A symbol has code iff it is the lower case of a variable. -/
@[simp] theorem hasCode_symbol {name : String} :
    s.HasCode (.symbol name : Formula F) ↔ name ∈ s.keys := by
  rw [← List.isSome_idxOf?]
  constructor
  · rintro ⟨code, hcode⟩
    obtain ⟨i, hi, -⟩ := instructions_symbol hcode
    exact Option.isSome_iff_exists.mpr ⟨i, hi⟩
  · intro h
    obtain ⟨i, hi⟩ := Option.isSome_iff_exists.mp h
    exact ⟨[.load i], by rw [instructions, index?, hi]⟩

/-- An operation has code iff both operands have. -/
@[simp] theorem hasCode_binary {op : Operator} {l r : Formula F} :
    s.HasCode (.binary op l r) ↔ s.HasCode l ∧ s.HasCode r := by
  constructor
  · rintro ⟨code, hcode⟩
    obtain ⟨left, right, hl, hr, -⟩ := instructions_binary hcode
    exact ⟨⟨left, hl⟩, ⟨right, hr⟩⟩
  · rintro ⟨⟨left, hl⟩, ⟨right, hr⟩⟩
    exact ⟨left ++ right ++ [.binary op], by rw [instructions, hl, hr]; rfl⟩

/-- A call of a known function has code iff its argument has. -/
@[simp] theorem hasCode_call (f : Function) {a : Formula F} :
    s.HasCode (.call f.name [a]) ↔ s.HasCode a := by
  constructor
  · rintro ⟨code, hcode⟩
    obtain ⟨g, b, argument, -, hb, ha, -⟩ := instructions_call hcode
    obtain rfl := List.singleton_inj.mp hb
    exact ⟨argument, ha⟩
  · rintro ⟨argument, ha⟩
    refine ⟨argument ++ [.call f], ?_⟩
    rw [instructions, f.ofName?_name]
    simp [Function.arity, argumentInstructions, ha, bind, Except.bind, pure, Except.pure]

/-- A compiled formula is its instructions, meant for all variables of the scope. -/
theorem compile_eq_ok {e : Formula F} {p : Program F} :
    s.compile e = .ok p ↔ s.instructions e = .ok p.code ∧ p.variableCount = s.size := by
  obtain ⟨code, count⟩ := p
  rw [compile]
  cases s.instructions e with
  | error fault => simp [bind, Except.bind]
  | ok code' => simp [bind, Except.bind, pure, Except.pure, eq_comm]

/-- A compiled formula is meant for the given variables. -/
theorem variableCount_of_compile {names : List String} {e : Formula F} {p : Program F}
    (h : (ofNames names).compile e = .ok p) : p.variableCount = names.length := by
  simp [(compile_eq_ok.mp h).2, size, ofNames]

/-- A formula that has instructions compiles. -/
theorem HasCode.compile {e : Formula F} (h : s.HasCode e) : ∃ p, s.compile e = .ok p := by
  obtain ⟨code, hcode⟩ := h
  exact ⟨⟨code, s.size⟩, compile_eq_ok.mpr ⟨hcode, rfl⟩⟩

end Drafting.Scope
