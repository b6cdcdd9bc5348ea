import Drafting.Proofs.Dual.Flat
import Drafting.Proofs.Program.Replacement

namespace Drafting

/-!
# Variables that a formula does not refer to

A name in a formula stands for the first variable that has the name as its lower case.  Along a
variable that no name stands for, a formula does not change, and neither does its program.

* `Formula.RefersTo` — one of the names stands for the variable;
* `Program.Ignores` — whatever the program comes to, its partial along the variable is zero;
* `Scope.ignores_of_compile` — the program of a formula ignores what the formula does not refer to.
-/

/-- The formula has a name that stands for variable `j` of `names`. -/
def Formula.RefersTo {F : Type} (e : Formula F) (names : List String) (j : Nat) : Prop :=
  ∃ name, Part (.symbol name) e ∧ names.findIdx? (Text.lowercase · == name) = some j

theorem Formula.RefersTo.part {F : Type} {e e' : Formula F} {names : List String} {j : Nat}
    (h : e'.RefersTo names j) (hpart : Part e' e) : e.RefersTo names j := by
  obtain ⟨name, hname, hj⟩ := h
  exact ⟨name, hname.trans hpart, hj⟩

variable {K : Type} [ExactScalar K] {names : List String} {values : List K} {j : Nat}

/-- A formula does not change along a variable it does not refer to. -/
theorem Formula.flat_of_interpret {e : Formula K} {v : Value K} (hfree : ¬ e.RefersTo names j)
    (h : e.interpret names values = .ok v) : v.Flat j := by
  induction e using Formula.induction generalizing v with
  | number x =>
    obtain rfl := Except.ok.inj h
    trivial
  | symbol name =>
    rw [interpret] at h
    cases hi : names.findIdx? (Text.lowercase · == name) with
    | none => rw [hi] at h; cases h
    | some i =>
      -- the name stands for another variable
      have other : i ≠ j := by
        rintro rfl
        exact hfree ⟨name, .refl, hi⟩
      rw [hi] at h
      cases hx : values[i]? with
      | none => simp [hx] at h
      | some x =>
        simp only [hx] at h
        obtain rfl := Except.ok.inj h
        exact Value.flat_seed other x _
  | binary op l r ihl ihr =>
    obtain ⟨x, y, hx, hy, hxy⟩ := interpret_binary_eq_ok.mp h
    have left := ihl (fun hl => hfree (hl.part (.left .refl))) hx
    have right := ihr (fun hr => hfree (hr.part (.right .refl))) hy
    exact Operator.flat_apply left right hxy
  | call name args ih =>
    obtain ⟨g, a, x, -, rfl, hx, rfl⟩ := interpret_call_eq_ok.mp h
    have inside : Part a (.call name [a]) := .argument (List.mem_singleton_self a) .refl
    exact g.flat_apply (ih a (List.mem_singleton_self a) (fun ha => hfree (ha.part inside)) hx)

/-- The program does not change along variable `j`, whatever the variables are. -/
def Program.Ignores (p : Program K) (j : Nat) : Prop :=
  ∀ values d, p.eval values = .ok d → d.Flat j

/-- **Programs ignore what their formulas do not refer to.** -/
theorem Scope.ignores_of_compile {e : Formula K} {p : Program K}
    (hp : (ofNames names).compile e = .ok p) (hfree : ¬ e.RefersTo names j) : p.Ignores j := by
  intro values d hd
  have count := variableCount_of_compile hp
  have hlen : values.length = names.length := by
    by_contra hne
    rw [Program.eval, if_neg (count ▸ hne)] at hd
    cases hd
  obtain ⟨v, hv, rfl⟩ := interpret_of_eval hp hlen hd
  exact (Formula.flat_of_interpret hfree hv).toDual names.length

end Drafting
