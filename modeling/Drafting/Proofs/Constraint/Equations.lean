import Drafting.Proofs.Constraint.Terms
import Drafting.Proofs.Double.Digits
import Drafting.Proofs.Program.Compiled
import Drafting.Proofs.Relaxation.Replaced

namespace Drafting

/-!
# Constraints write the equations they mean

A constraint with finite parameters has equations, which are read as the formulas of its kind.
These compile wherever the coordinates of its points are variables.  A list of constraints has the
equations of its constraints in a row, unless one of its parameters is not finite; then the first
of these is reported.

* `Point.hasCode_terms` — constraints between points compile over the coordinates of the points;
* `Constraint.allEquations_eq_error` — when a list of constraints is refused;
* `Constraint.equations_read` — what constraints between doubles write.
-/

open Lexer

variable {F : Type}

/-! ### The coordinates of points as variables -/

/-- A name is written in ASCII characters. -/
theorem Lexer.IsName.isAscii {name : String} (h : IsName name.toList) : Text.IsAscii name := by
  intro c hc
  have hchar := h.isNameChar c hc
  simp only [Lexer.isNameChar, Char.isAlphanum, Bool.or_eq_true, beq_iff_eq] at hchar
  rcases hchar with (hchar | hchar) | rfl
  · have := isNameStart_iff.mp hchar
    omega
  · have := isDigit_iff.mp hchar
    omega
  · decide

namespace Scope

variable {s : Scope}

@[simp] theorem hasCode_of {f : Function} {e : Formula F} : s.HasCode (f.of e) ↔ s.HasCode e :=
  hasCode_call f

@[simp] theorem hasCode_literalTerm [Scalar F] (x : F) :
    s.HasCode (Constraint.literalTerm x) := by
  rw [Constraint.literalTerm]
  split <;> simp

end Scope

namespace Point

variable {points : List (Point F)} {id : String}

theorem mem_keys_assignment {name : String} :
    name ∈ (assignment points).keys ↔ ∃ p ∈ points, name = xOf p.id ∨ name = yOf p.id := by
  rw [assignment, Keyed.mem_keys_ofList, List.map_flatMap]
  simp

/-- A name of a coordinate is found when it is folded. -/
theorem hasCode_coordinate {name : String} (hname : IsName name.toList)
    (h : ∃ p ∈ points, name = xOf p.id ∨ name = yOf p.id) :
    (Scope.ofNames (assignment points).keys).HasCode
      (.symbol (Text.asciiFold name) : Formula F) := by
  rw [Scope.hasCode_symbol]
  show _ ∈ (assignment points).keys.map Text.lowercase
  rw [← Text.lowercase_eq_asciiFold hname.isAscii]
  exact List.mem_map_of_mem (mem_keys_assignment.mpr h)

/-- The first coordinate of a point of the assignment is one of its variables. -/
theorem hasCode_xTerm (hid : IsName id.toList) (h : ∃ p ∈ points, p.id = id) :
    (Scope.ofNames (assignment points).keys).HasCode (Constraint.xTerm id : Formula F) := by
  obtain ⟨p, hp, rfl⟩ := h
  rw [Constraint.xTerm_eq]
  exact hasCode_coordinate (Constraint.isName_xOf hid) ⟨p, hp, .inl rfl⟩

/-- So is the second one. -/
theorem hasCode_yTerm (hid : IsName id.toList) (h : ∃ p ∈ points, p.id = id) :
    (Scope.ofNames (assignment points).keys).HasCode (Constraint.yTerm id : Formula F) := by
  obtain ⟨p, hp, rfl⟩ := h
  rw [Constraint.yTerm_eq]
  exact hasCode_coordinate (Constraint.isName_yOf hid) ⟨p, hp, .inr rfl⟩

variable [Scalar F]

/-- **The formulas of a constraint compile** over the coordinates of points, if its points are
    among them. -/
theorem hasCode_terms {c : Constraint F} (hids : ∀ id ∈ c.ids, IsName id.toList)
    (h : ∀ id ∈ c.ids, ∃ p ∈ points, p.id = id) {e : Formula F} (he : e ∈ c.terms) :
    (Scope.ofNames (assignment points).keys).HasCode e := by
  have x (id : String) (hid : id ∈ c.ids) := hasCode_xTerm (hids id hid) (h id hid)
  have y (id : String) (hid : id ∈ c.ids) := hasCode_yTerm (hids id hid) (h id hid)
  revert e
  -- the formulas are made of coordinates, numbers, operations and calls of known functions
  cases c <;> simp [Constraint.ids] at x y <;>
    simp [Constraint.terms, Constraint.lengthTerm, Constraint.doubleAreaTerm, Constraint.crossTerm,
      Constraint.squareTerm, x, y]

end Point

namespace Constraint

variable [Scalar F]

/-! ### Parameters that are not finite -/

theorem literal_of_isFinite {x : F} (h : Scalar.isFinite x = true) :
    ∃ text, literal x = .ok text := by
  simp [literal, h]

theorem literal_of_not_isFinite {x : F} (h : Scalar.isFinite x = false) :
    literal x = .error (.notFinite x) := by
  simp [literal, h]

/-- The first number that is not finite. -/
def firstInfinite? (xs : List F) : Option F := xs.find? fun x => !Scalar.isFinite x

/-- A constraint is refused for its first parameter that is not finite. -/
theorem equations_eq_error {c : Constraint F} {v : F} (h : firstInfinite? c.parameters = some v) :
    c.equations = .error (.notFinite v) := by
  cases c with
  | distance _ _ d | pointOnLine _ _ _ d =>
    obtain ⟨hd, rfl⟩ : Scalar.isFinite d = false ∧ d = v := by
      simpa [parameters, firstInfinite?] using h
    rw [equations, literal_of_not_isFinite hd]
    rfl
  | fix p x y =>
    cases hx : Scalar.isFinite x with
    | false =>
      obtain rfl : x = v := by simpa [parameters, firstInfinite?, hx] using h
      rw [equations, literal_of_not_isFinite hx]
      rfl
    | true =>
      -- the second coordinate is looked at after the first
      obtain ⟨hy, rfl⟩ : Scalar.isFinite y = false ∧ y = v := by
        simpa [parameters, firstInfinite?, hx] using h
      obtain ⟨text, htext⟩ := literal_of_isFinite hx
      rw [equations, htext, literal_of_not_isFinite hy]
      rfl
  | equalLength | parallel | coincident | horizontal | vertical => cases h

/-- Otherwise it has equations. -/
theorem exists_equations {c : Constraint F} (h : ∀ x ∈ c.parameters, Scalar.isFinite x = true) :
    ∃ texts, c.equations = .ok texts := by
  cases c with
  | distance _ _ d | pointOnLine _ _ _ d =>
    obtain ⟨text, htext⟩ := literal_of_isFinite (h d (by simp [parameters]))
    rw [equations, htext]
    exact ⟨_, rfl⟩
  | fix p x y =>
    obtain ⟨first, hx⟩ := literal_of_isFinite (h x (by simp [parameters]))
    obtain ⟨second, hy⟩ := literal_of_isFinite (h y (by simp [parameters]))
    rw [equations, hx, hy]
    exact ⟨_, rfl⟩
  | equalLength | parallel | coincident | horizontal | vertical => exact ⟨_, rfl⟩

theorem firstInfinite?_eq_none {xs : List F} :
    firstInfinite? xs = none ↔ ∀ x ∈ xs, Scalar.isFinite x = true := by
  simp [firstInfinite?]

variable {constraints : List (Constraint F)}

/-- **A list of constraints is refused** for its first parameter that is not finite. -/
theorem allEquations_eq_error {v : F}
    (h : firstInfinite? (constraints.flatMap parameters) = some v) :
    allEquations constraints = .error (.notFinite v) := by
  rw [firstInfinite?, List.find?_flatMap, List.findSome?_eq_some_iff] at h
  obtain ⟨before, c, after, rfl, hc, hbefore⟩ := h
  have stops : (before ++ c :: after).mapM equations = .error (.notFinite v) :=
    mapM_eq_error.mpr ⟨before, c, after, rfl,
      fun d hd => exists_equations (firstInfinite?_eq_none.mp (hbefore d hd)),
      equations_eq_error hc⟩
  rw [allEquations, stops]
  rfl

/-- **Otherwise it has the equations of its constraints**, in a row. -/
theorem exists_allEquations (h : firstInfinite? (constraints.flatMap parameters) = none) :
    ∃ lists, List.Forall₂ (fun c texts => c.equations = .ok texts) constraints lists ∧
      allEquations constraints = .ok lists.flatten := by
  rw [firstInfinite?_eq_none, List.forall_mem_flatMap] at h
  rcases isOk_or_error (constraints.mapM equations) with ⟨lists, hlists⟩ | ⟨fault, hfault⟩
  · exact ⟨lists, forall₂_of_mapM_eq_ok hlists, by rw [allEquations, hlists]; rfl⟩
  · obtain ⟨before, c, after, rfl, -, hc⟩ := mapM_eq_error.mp hfault
    obtain ⟨texts, htexts⟩ := exists_equations (h c (by simp))
    rw [htexts] at hc
    cases hc

/-- **Constraints write the equations they mean.**  A constraint between points with names as
    formulas have them, and with finite parameters that are read back from their texts, has
    equations.  These are read as the formulas of the constraint, which compile over the coordinates
    of all points that include its own.  A list of constraints has the equations of all of them, in
    order, or is refused for the first parameter that is not finite. -/
theorem equations_read :
    (∀ c : Constraint Float, (∀ id ∈ c.ids, IsName id.toList) →
      (∀ x ∈ c.parameters, Scalar.isFinite x = true) →
      (∀ x ∈ c.parameters, Scalar.ReadsBack (Scalar.abs x)) →
      ∃ texts, c.equations = .ok texts ∧
        List.Forall₂ (fun text e => Formula.ofText text = .ok e) texts c.terms ∧
        ∀ points : List (Point Float), (∀ id ∈ c.ids, ∃ p ∈ points, p.id = id) →
          ∀ e ∈ c.terms, ∃ p, (Scope.ofNames (Point.assignment points).keys).compile e = .ok p) ∧
    ∀ constraints : List (Constraint Float),
      match firstInfinite? (constraints.flatMap parameters) with
      | some v => allEquations constraints = .error (.notFinite v)
      | none => ∃ lists, List.Forall₂ (fun c texts => c.equations = .ok texts) constraints lists ∧
          allEquations constraints = .ok lists.flatten := by
  refine ⟨fun c hids hfinite hreads => ?_, fun constraints => ?_⟩
  · obtain ⟨texts, htexts⟩ := exists_equations hfinite
    have numerals : ∀ x ∈ c.parameters, IsDecimal (Scalar.text (Scalar.abs x)).toList :=
      fun x hx => Double.isDecimal_text_abs (hfinite x hx)
    exact ⟨texts, htexts, ofText_equations hids numerals hreads htexts,
      fun points h e he => (Point.hasCode_terms hids h he).compile⟩
  · cases h : firstInfinite? (constraints.flatMap parameters) with
    | some v => exact allEquations_eq_error h
    | none => exact exists_allEquations h

/-- A distance from a line, with an underscore in a name and a negative distance. -/
theorem equations_read_pointOnLine :
    ∃ texts, (pointOnLine "P" "left_top" "B2" (-0.1 : Float)).equations = .ok texts ∧
      List.Forall₂ (fun text e => Formula.ofText text = .ok e) texts
        (pointOnLine "P" "left_top" "B2" (-0.1 : Float)).terms ∧
      ∀ points : List (Point Float),
        (∀ id ∈ (pointOnLine "P" "left_top" "B2" (-0.1 : Float)).ids, ∃ p ∈ points, p.id = id) →
        ∀ e ∈ (pointOnLine "P" "left_top" "B2" (-0.1 : Float)).terms,
          ∃ p, (Scope.ofNames (Point.assignment points).keys).compile e = .ok p := by
  refine equations_read.1 _ ?_ ?_ ?_
  · simp only [ids, List.forall_mem_cons]
    decide
  · simp only [parameters, List.forall_mem_cons]
    decide +kernel
  · simp only [parameters, List.forall_mem_cons]
    decide +kernel

end Constraint

end Drafting
