import Drafting.Proofs.Dual.Real
import Drafting.Proofs.Formula.Derivative
import Drafting.Proofs.Program.Interpreter
import Drafting.Proofs.Result

namespace Drafting

/-!
# Formulas with names replaced

A formula in which names were replaced has the value of the original one, if every name has the
value of its replacement.  Where a number replaces a variable the derivatives change, and so do the
exponents that a power takes: in operands of powers names may only be replaced by names.

* `Formula.SparesPowers` — no number replaces a name in an operand of a power;
* `Formula.interpret_of_replace` — the original formula has a value, and which one;
* `Scope.exists_compile`, `Scope.interpret_of_eval` — formulas with a value have a program with it,
  and the other way round.
-/

namespace Formula

variable {F : Type}

/-- No number is put in the place of a name. -/
def SparesNames (f : String → Option (Formula F)) (e : Formula F) : Prop :=
  ∀ name, Part (.symbol name) e → ∀ x, f name ≠ some (.number x)

/-- No number is put in the place of a name inside an operand of a power. -/
def SparesPowers (f : String → Option (Formula F)) (e : Formula F) : Prop :=
  ∀ l r, Part (.binary .pow l r) e → l.SparesNames f ∧ r.SparesNames f

variable {f : String → Option (Formula F)} {e e' l r : Formula F} {names names' : List String}
  {values values' : List F}

theorem SparesNames.part (h : e.SparesNames f) (hpart : Part e' e) : e'.SparesNames f :=
  fun name hname => h name (hname.trans hpart)

theorem SparesPowers.part (h : e.SparesPowers f) (hpart : Part e' e) : e'.SparesPowers f :=
  fun l r hpower => h l r (hpower.trans hpart)

variable [Scalar F] {v w : Value F}

/-! ### Values of replacements -/

/-- The value `v` of a formula with names replaced has the value `w` of the formula; and if no
    number was put in, they are both plain numbers, or both not. -/
structure Stands (f : String → Option (Formula F)) (e : Formula F) (v w : Value F) : Prop where
  real : v.real = w.real
  isNumber : e.SparesNames f → v.isNumber = w.isNumber

/-- Where one value stands for another, so do the values of a function. -/
theorem Stands.call {name : String} (h : Stands f e v w) (g : Function) :
    Stands f (.call name [e]) (g.apply v) (g.apply w) where
  real := by rw [g.real_apply, g.real_apply, h.real]
  isNumber := by
    intro hspares
    rw [g.isNumber_apply, g.isNumber_apply]
    exact h.isNumber (hspares.part (.argument (List.mem_singleton_self e) .refl))

/-- An operation on replacements; a power needs operands that are alike. -/
theorem Stands.binary {op : Operator} {x x' y y' : Value F} (hx : Stands f l x x')
    (hy : Stands f r y y') (hpower : op = .pow → l.SparesNames f ∧ r.SparesNames f)
    (h : op.apply x y = .ok v) :
    ∃ w, op.apply x' y' = .ok w ∧ Stands f (.binary op l r) v w := by
  by_cases hspares : l.SparesNames f ∧ r.SparesNames f
  · obtain ⟨w, hw, halike⟩ := Operator.alike_apply ⟨hx.real, hx.isNumber hspares.1⟩
      ⟨hy.real, hy.isNumber hspares.2⟩ h
    exact ⟨w, hw, halike.real, fun _ => halike.isNumber⟩
  · have hop : op ≠ .pow := fun hop => hspares (hpower hop)
    obtain ⟨w, hw, hreal, -, -⟩ := Operator.real_apply hop hx.real hy.real h
    refine ⟨w, hw, hreal, fun hall => absurd ?_ hspares⟩
    exact ⟨hall.part (.left .refl), hall.part (.right .refl)⟩

/-- **The original formula.**  If each name has the value of its replacement, a formula has the
    value it has with its names replaced. -/
theorem interpret_of_replace (hpowers : e.SparesPowers f)
    (hsymbols : ∀ name, Part (.symbol name) e → ∀ v,
      ((symbol name).replace f).interpret names values = .ok v →
      ∃ w, (symbol name).interpret names' values' = .ok w ∧ Stands f (.symbol name) v w)
    (hv : (e.replace f).interpret names values = .ok v) :
    ∃ w, e.interpret names' values' = .ok w ∧ Stands f e v w := by
  induction e using Formula.induction generalizing v with
  | number x =>
    obtain rfl := Except.ok.inj hv
    exact ⟨_, rfl, rfl, fun _ => rfl⟩
  | symbol name => exact hsymbols name .refl v hv
  | binary op l r ihl ihr =>
    rw [replace] at hv
    obtain ⟨x, y, hx, hy, hxy⟩ := interpret_binary_eq_ok.mp hv
    obtain ⟨x', hx', standsX⟩ :=
      ihl (hpowers.part (.left .refl)) (fun n hn => hsymbols n (.left hn)) hx
    obtain ⟨y', hy', standsY⟩ :=
      ihr (hpowers.part (.right .refl)) (fun n hn => hsymbols n (.right hn)) hy
    obtain ⟨w, hw, stands⟩ := standsX.binary standsY (fun hop => hpowers l r (hop ▸ .refl)) hxy
    exact ⟨w, interpret_binary_eq_ok.mpr ⟨x', y', hx', hy', hw⟩, stands⟩
  | call name args ih =>
    rw [replace, replaceAll_eq_map] at hv
    obtain ⟨g, a, x, hg, hargs, hx, rfl⟩ := interpret_call_eq_ok.mp hv
    -- a call with a value has one argument
    obtain ⟨b, rfl, rfl⟩ := List.map_eq_singleton_iff.mp hargs
    have inside : Part b (.call name [b]) := .argument (List.mem_singleton_self b) .refl
    obtain ⟨x', hx', stands⟩ := ih b (List.mem_singleton_self b) (hpowers.part inside)
      (fun n hn => hsymbols n (hn.trans inside)) hx
    exact ⟨_, interpret_call_eq_ok.mpr ⟨g, b, x', hg, rfl, hx', rfl⟩, stands.call g⟩

end Formula

namespace Scope

open Formula

variable {F : Type} [Scalar F] {names : List String} {values : List F} {e : Formula F}

/-- A formula with a value has instructions. -/
theorem hasCode_of_interpret {v : Value F} (h : e.interpret names values = .ok v) :
    (ofNames names).HasCode e := by
  induction e using Formula.induction generalizing v with
  | number x => exact hasCode_number x
  | symbol name =>
    rw [interpret] at h
    cases hi : names.findIdx? (Text.lowercase · == name) with
    | none => rw [hi] at h; cases h
    | some i => exact ⟨[.load i], by rw [instructions, index?_ofNames, hi]⟩
  | binary op l r ihl ihr =>
    obtain ⟨x, y, hx, hy, -⟩ := interpret_binary_eq_ok.mp h
    exact hasCode_binary.mpr ⟨ihl hx, ihr hy⟩
  | call name args ih =>
    obtain ⟨g, a, x, hg, rfl, hx, -⟩ := interpret_call_eq_ok.mp h
    rw [← Function.name_of_ofName? hg, hasCode_call]
    exact ih a (List.mem_singleton_self a) hx

/-- A formula with a value compiles. -/
theorem exists_compile {v : Value F} (h : e.interpret names values = .ok v) :
    ∃ p, (ofNames names).compile e = .ok p :=
  (hasCode_of_interpret h).compile

/-- A program with a value comes from a formula with that value. -/
theorem interpret_of_eval {p : Program F} {d : Dual F} (hp : (ofNames names).compile e = .ok p)
    (hlen : values.length = names.length) (hd : p.eval values = .ok d) :
    ∃ v, e.interpret names values = .ok v ∧ d = v.toDual names.length := by
  obtain ⟨hcode, -⟩ := compile_eq_ok.mp hp
  have count := variableCount_of_compile hp
  have agrees := run_instructions hlen hcode []
  rw [Program.eval, if_pos (hlen.trans count.symm), Instruction.execute, count] at hd
  generalize e.interpret names values = outcome, Instruction.run values p.code [] = result
    at agrees hd ⊢
  cases agrees with
  | failure fault => cases hd
  | value => exact ⟨_, rfl, (Except.ok.inj hd).symm⟩

end Scope

end Drafting
