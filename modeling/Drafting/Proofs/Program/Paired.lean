import Drafting.Proofs.Dual.Paired
import Drafting.Proofs.Formula.Derivative
import Drafting.Proofs.Program.Interpreter

namespace Drafting

/-!
# Programs of two runs side by side

A formula is worked out for two lists of variables.  If what the names stand for is related, so is
what the formula comes to; and so are the results of the two programs it is compiled to.

* `Formula.interpret_paired` — the formula;
* `Scope.eval_paired` — its programs.
-/

variable {F : Type} [Scalar F] {R : Dual F → Dual F → Prop} {names names' : List String}
  {values values' : List F} {e : Formula F}

/-- What the names of a formula stand for is related in the two runs, or unknown in both. -/
def Formula.NamesPaired (R : Dual F → Dual F → Prop) (names names' : List String)
    (values values' : List F) (e : Formula F) : Prop :=
  ∀ name, Part (.symbol name) e → AgreeUpTo (Value.Paired R)
    ((Formula.symbol name).interpret names values) ((Formula.symbol name).interpret names' values')

theorem Formula.NamesPaired.part {e' : Formula F}
    (h : e.NamesPaired R names names' values values') (hpart : Part e' e) :
    e'.NamesPaired R names names' values values' :=
  fun name hname => h name (hname.trans hpart)

/-- **Formulas of two runs** come to values that are related, or fail alike. -/
theorem Formula.interpret_paired (hR : Dual.Congruence values.length values'.length R)
    (hnames : e.NamesPaired R names names' values values') :
    AgreeUpTo (Value.Paired R) (e.interpret names values) (e.interpret names' values') := by
  induction e using Formula.induction with
  | number x => exact .ok (.number x)
  | symbol name => exact hnames name .refl
  | binary op l r ihl ihr =>
    rw [interpret, interpret]
    refine (ihl (hnames.part (.left .refl))).bind fun v v' hv => ?_
    refine (ihr (hnames.part (.right .refl))).bind fun w w' hw => ?_
    exact (op.paired_apply hR hv hw).mapError _
  | call name args ih =>
    rw [interpret, interpret]
    cases Function.ofName? name with
    | none => exact .error _
    | some f =>
      rcases args with _ | ⟨a, _ | ⟨b, rest⟩⟩
      · exact .error _
      · have mem : a ∈ [a] := List.mem_singleton_self a
        refine (ih a mem (hnames.part (.argument mem .refl))).bind fun v v' hv => ?_
        exact .ok (f.paired_apply hR hv)
      · exact .error _

/-- **Programs of two runs.** -/
theorem Scope.eval_paired {p p' : Program F} (hR : Dual.Congruence names.length names'.length R)
    (hp : (ofNames names).compile e = .ok p) (hp' : (ofNames names').compile e = .ok p')
    (hlen : values.length = names.length) (hlen' : values'.length = names'.length)
    (hnames : e.NamesPaired R names names' values values') :
    AgreeUpTo R (p.eval values) (p'.eval values') := by
  have related := Formula.interpret_paired (hlen ▸ hlen' ▸ hR) hnames
  have eval := (eval_eq_interpret names e p values hp hlen).2.1
  have eval' := (eval_eq_interpret names' e p' values' hp' hlen').2.1
  refine AgreeUpTo.of_mapError (f := FormulaError.evaluating) (fun _ _ => by simp) ?_
  rw [eval, eval']
  exact related.map fun v v' hv => hv.toDual hR

end Drafting
