import Drafting.Proofs.Dual.Tangent
import Drafting.Proofs.Program.Replacement
import Drafting.Proofs.Relaxation.Replaced

namespace Drafting

/-!
# Numbers that formulas denote

In exact arithmetic a formula denotes a number under an assignment, by the rules of arithmetic, as
long as no divisor is zero.  What its partials are does not matter, so that roots of zero and other
points without a derivative are no exception.

* `Formula.Denotes` — the tree of a formula comes to a number, with a rule for each kind of node;
* `Formula.Denotes.evaluate` — a text that is read as the formula has this value.
-/

namespace Formula

variable {K : Type} [ExactScalar K] {a : Keyed K} {e l r : Formula K} {x y : K}

/-- Under the assignment the tree of the formula comes to the number `x`, with some gradient. -/
def Denotes (a : Keyed K) (e : Formula K) (x : K) : Prop :=
  ∃ v, e.interpret a.keys a.values = .ok v ∧ ∃ dx : Fin a.values.length → K, v.Tangent x dx

theorem denotes_number (x : K) : Denotes a (.number x) x :=
  ⟨.number x, rfl, fun _ => 0, Value.tangent_number fun _ => rfl⟩

/-- A name denotes the value that the assignment has for it. -/
theorem denotes_symbol {name : String} (hkeys : ∀ key ∈ a.keys, Text.IsAscii key)
    (hname : Text.asciiFold name = name) (h : a.named? name = some x) :
    Denotes a (.symbol name) x := by
  rw [Keyed.named?_eq_bind] at h
  obtain ⟨i, hi, hx⟩ := Option.bind_eq_some_iff.mp h
  exact ⟨_, (Keyed.interpret_symbol hkeys hname).mpr ⟨i, hi, x, hx, rfl⟩, _, Value.tangent_seed i⟩

namespace Denotes

theorem congr (h : Denotes a e x) (hxy : x = y) : Denotes a e y := hxy ▸ h

/-- An operation denotes what its operator makes of the two numbers. -/
theorem binary {op : Operator} {z : K} (hl : Denotes a l x) (hr : Denotes a r y)
    (rule : ∀ (v w : Value K) (dx dy : Fin a.values.length → K), v.Tangent x dx → w.Tangent y dy →
      ∃ u, op.apply v w = .ok u ∧ ∃ dz : Fin a.values.length → K, u.Tangent z dz) :
    Denotes a (.binary op l r) z := by
  obtain ⟨v, hv, dx, left⟩ := hl
  obtain ⟨w, hw, dy, right⟩ := hr
  obtain ⟨u, happly, tangent⟩ := rule v w dx dy left right
  exact ⟨u, interpret_binary_eq_ok.mpr ⟨v, w, hv, hw, happly⟩, tangent⟩

theorem add (hl : Denotes a l x) (hr : Denotes a r y) : Denotes a (.binary .add l r) (x + y) :=
  hl.binary hr fun v w _ _ left right => ⟨v.add w, rfl, _, left.add right⟩

theorem sub (hl : Denotes a l x) (hr : Denotes a r y) : Denotes a (.binary .sub l r) (x - y) :=
  hl.binary hr fun v w _ _ left right => ⟨v.sub w, rfl, _, left.sub right⟩

theorem mul (hl : Denotes a l x) (hr : Denotes a r y) : Denotes a (.binary .mul l r) (x * y) :=
  hl.binary hr fun v w _ _ left right => ⟨v.mul w, rfl, _, left.mul right⟩

theorem div (hl : Denotes a l x) (hr : Denotes a r y) (hy : y ≠ 0) :
    Denotes a (.binary .div l r) (x / y) :=
  hl.binary hr fun v w _ _ left right => ⟨v.div w, rfl, _, left.div right hy⟩

/-- A power whose exponent is a numeral. -/
theorem pow [ExactPowers K] (h : Denotes a e x) {n : Nat} (hn : n < 2 ^ 64) :
    Denotes a (.binary .pow e (.number (Scalar.ofNat n))) (x ^ n) := by
  obtain ⟨v, hv, dx, tangent⟩ := h
  obtain ⟨u, happly, result⟩ := tangent.power (k := n) (by omega) (by omega)
  have exponent : (Scalar.ofNat n : K) = ((n : ℤ) : K) := by simp
  rw [← exponent] at happly
  refine ⟨u, interpret_binary_eq_ok.mpr ⟨v, _, hv, rfl, happly⟩, _, by simpa using result⟩

/-- A call denotes what the function makes of the number. -/
theorem call (f : Function) (h : Denotes a e x) : Denotes a (f.of e) (f.real x) := by
  obtain ⟨v, hv, dx, tangent⟩ := h
  have value := interpret_call_eq_ok.mpr ⟨f, e, v, f.ofName?_name, rfl, hv, rfl⟩
  exact ⟨f.apply v, value, _, f.apply_eq v ▸ tangent.unary f.real f.slope⟩

/-- **A text has the value that its formula denotes.** -/
theorem evaluate {text : String} (htext : ofText text = .ok e) (h : Denotes a e x) :
    ∃ d, Drafting.evaluate text a = .ok d ∧ d.value = x := by
  obtain ⟨v, hv, dx, tangent⟩ := h
  obtain ⟨p, hp⟩ := Scope.exists_compile hv
  have lengths : a.values.length = a.keys.length := a.length_values.trans a.length_keys.symm
  refine ⟨_, evaluate_eq_ok htext hp (Scope.eval_of_interpret hp lengths hv), ?_⟩
  rw [Value.value_toDual, tangent.real_eq]

end Denotes

end Formula

end Drafting
