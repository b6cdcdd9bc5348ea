import Drafting.Constraint
import Drafting.Proofs.Formula.Derivative
import Drafting.Proofs.Formula.Writing

namespace Drafting

/-!
# What the equations of constraints say

The equations of a constraint are formulas in the coordinates of its points, with folded names.  The
texts of the equations are put together from parts, and so is what they are read as.

* `Constraint.terms` — the formulas of a constraint;
* `Constraint.ofText_equations` — the texts of a constraint are read as its formulas.
-/

open Lexer Formula

variable {F : Type} [Scalar F]

namespace Constraint

/-! ### The formulas of a constraint -/

omit [Scalar F] in
/-- The points that a constraint is about. -/
def ids : Constraint F → List String
  | .distance a b _ | .coincident a b | .horizontal a b | .vertical a b => [a, b]
  | .pointOnLine p l0 l1 _ => [p, l0, l1]
  | .equalLength a0 a1 b0 b1 | .parallel a0 a1 b0 b1 => [a0, a1, b0, b1]
  | .fix p _ _ => [p]

omit [Scalar F] in
/-- The numbers of a constraint, in the order in which its equations have them. -/
def parameters : Constraint F → List F
  | .distance _ _ d | .pointOnLine _ _ _ d => [d]
  | .fix _ x y => [x, y]
  | .equalLength .. | .parallel .. | .coincident .. | .horizontal .. | .vertical .. => []

omit [Scalar F] in
/-- The first coordinate of a point. -/
def xTerm (p : String) : Formula F := .symbol (xOf (Text.asciiFold p))

omit [Scalar F] in
/-- The second coordinate of a point. -/
def yTerm (p : String) : Formula F := .symbol (yOf (Text.asciiFold p))

/-- A number: its absolute value, negated by a call. -/
def literalTerm (x : F) : Formula F :=
  if Scalar.less x Scalar.zero then Function.neg.of (.number (Scalar.abs x))
  else .number (Scalar.abs x)

/-- The square of a formula. -/
def squareTerm (e : Formula F) : Formula F := .binary .pow e (.number (Scalar.ofNat 2))

/-- The distance between two points. -/
def lengthTerm (p q : String) : Formula F :=
  Function.sqrt.of (.binary .add
    (squareTerm (.binary .sub (xTerm q) (xTerm p)))
    (squareTerm (.binary .sub (yTerm q) (yTerm p))))

/-- Twice the area of a triangle, without its sign. -/
def doubleAreaTerm (p l0 l1 : String) : Formula F :=
  Function.sqrt.of (squareTerm
    (.binary .sub
      (.binary .add
        (.binary .sub
          (.binary .mul (.binary .sub (yTerm l1) (yTerm l0)) (xTerm p))
          (.binary .mul (.binary .sub (xTerm l1) (xTerm l0)) (yTerm p)))
        (.binary .mul (xTerm l1) (yTerm l0)))
      (.binary .mul (yTerm l1) (xTerm l0))))

omit [Scalar F] in
/-- The cross product of two directions. -/
def crossTerm (a0 a1 b0 b1 : String) : Formula F :=
  .binary .add
    (.binary .mul (.binary .sub (xTerm a0) (xTerm a1)) (.binary .sub (yTerm b1) (yTerm b0)))
    (.binary .mul (.binary .sub (yTerm a1) (yTerm a0)) (.binary .sub (xTerm b1) (xTerm b0)))

/-- The formulas that are zero where a constraint holds. -/
def terms : Constraint F → List (Formula F)
  | .distance a b d => [.binary .sub (literalTerm d) (lengthTerm a b)]
  | .pointOnLine p l0 l1 d =>
    [.binary .sub (.binary .div (doubleAreaTerm p l0 l1) (lengthTerm l0 l1)) (literalTerm d)]
  | .equalLength a0 a1 b0 b1 => [.binary .sub (lengthTerm b0 b1) (lengthTerm a0 a1)]
  | .parallel a0 a1 b0 b1 => [crossTerm a0 a1 b0 b1]
  | .coincident a b => [.binary .sub (xTerm a) (xTerm b), .binary .sub (yTerm a) (yTerm b)]
  | .horizontal a b => [.binary .sub (yTerm a) (yTerm b)]
  | .vertical a b => [.binary .sub (xTerm a) (xTerm b)]
  | .fix p x y =>
    [.binary .sub (literalTerm x) (xTerm p), .binary .sub (literalTerm y) (yTerm p)]

end Constraint

/-! ### Parts of texts -/

theorem Text.asciiFold_append (s t : String) : asciiFold (s ++ t) = asciiFold s ++ asciiFold t := by
  simp [asciiFold, String.ofList_append]

namespace Constraint

variable {depth : Nat} {cs ds : List Char} {e l r : Formula F} {p q : String}

omit [Scalar F] in
theorem isName_xOf (h : IsName p.toList) : IsName (xOf p).toList := by
  have suffix : ∀ c ∈ ['_', 'x'], isNameChar c = true := by simp [isNameChar]
  simpa [xOf] using h.append suffix

omit [Scalar F] in
theorem isName_yOf (h : IsName p.toList) : IsName (yOf p).toList := by
  have suffix : ∀ c ∈ ['_', 'y'], isNameChar c = true := by simp [isNameChar]
  simpa [yOf] using h.append suffix

theorem asciiFold_xOf (p : String) : Text.asciiFold (xOf p) = xOf (Text.asciiFold p) := by
  rw [xOf, xOf, Text.asciiFold_append]
  rfl

theorem asciiFold_yOf (p : String) : Text.asciiFold (yOf p) = yOf (Text.asciiFold p) := by
  rw [yOf, yOf, Text.asciiFold_append]
  rfl

omit [Scalar F] in
theorem xTerm_eq (p : String) : (xTerm p : Formula F) = .symbol (Text.asciiFold (xOf p)) := by
  rw [xTerm, asciiFold_xOf]

omit [Scalar F] in
theorem yTerm_eq (p : String) : (yTerm p : Formula F) = .symbol (Text.asciiFold (yOf p)) := by
  rw [yTerm, asciiFold_yOf]

theorem writtenAs_xOf (h : IsName p.toList) :
    WrittenAs .atom depth (xOf p).toList (xTerm p : Formula F) := by
  rw [xTerm_eq]
  exact .symbol (isName_xOf h)

theorem writtenAs_yOf (h : IsName p.toList) :
    WrittenAs .atom depth (yOf p).toList (yTerm p : Formula F) := by
  rw [yTerm_eq]
  exact .symbol (isName_yOf h)

/-- The call of a function. -/
theorem writtenAs_of (f : Function) (h : WrittenAs .sum (depth + 1) cs e)
    (hdepth : depth < maxNesting) :
    WrittenAs .atom depth (f.name.toList ++ '(' :: (cs ++ [')'])) (f.of e) := by
  have name : IsName f.name.toList := by cases f <;> decide
  have folded : Text.asciiFold f.name = f.name := by cases f <;> decide
  have argument : ∀ a ∈ [(cs, e)], WrittenAs .sum (depth + 1) a.1 a.2 :=
    List.forall_mem_singleton.mpr h
  have call := WrittenAs.call name argument hdepth
  rw [folded] at call
  simpa [Function.of] using call

/-- A difference of two atoms, in parentheses. -/
theorem writtenAs_offset (hl : WrittenAs .atom (depth + 1) cs l)
    (hr : WrittenAs .atom (depth + 1) ds r) (hdepth : depth < maxNesting) :
    WrittenAs .atom depth ('(' :: (cs ++ '-' :: ds ++ [')'])) (.binary .sub l r) := by
  have inside := WrittenAs.operation .sub (hl.loosen (by decide)) (hr.loosen (by decide))
  exact .group inside hdepth

/-- A product of two atoms. -/
theorem writtenAs_product (hl : WrittenAs .atom depth cs l) (hr : WrittenAs .atom depth ds r) :
    WrittenAs .product depth (cs ++ '*' :: ds) (.binary .mul l r) :=
  .operation .mul (hl.loosen (by decide)) (hr.loosen (by decide))

/-- A quotient of two atoms. -/
theorem writtenAs_quotient {a b : String} (ha : WrittenAs .atom 0 a.toList l)
    (hb : WrittenAs .atom 0 b.toList r) :
    WrittenAs .product 0 (a ++ " / " ++ b).toList (.binary .div l r) := by
  have written : WrittenAs .product 0 _ _ :=
    (ha.loosen (by decide)).spacedOperation .div (hb.loosen (by decide))
  simpa [Operator.char] using written

/-- The square of an atom. -/
theorem writtenAs_square (h : WrittenAs .atom depth cs e) :
    WrittenAs .power depth (cs ++ ['^', '2']) (squareTerm e) := by
  have two : IsDecimal ['2'] := ⟨by simp, by simp, by simp⟩
  exact .operation .pow (h.loosen (by decide)) (.number two)

/-- A number, written with its absolute value. -/
theorem writtenAs_literal {x : F} (hnumeral : IsDecimal (Scalar.text (Scalar.abs x)).toList)
    (hreads : Scalar.ReadsBack (Scalar.abs x)) {text : String} (h : literal x = .ok text) :
    WrittenAs .atom 0 text.toList (literalTerm x) := by
  have digits {depth : Nat} : WrittenAs .atom depth (Scalar.text (Scalar.abs x)).toList
      (.number (Scalar.abs x) : Formula F) := .printed hnumeral hreads
  unfold literal at h
  split at h
  · cases h
  obtain rfl := Except.ok.inj h
  rw [literalTerm]
  split
  · have call := writtenAs_of .neg (digits.loosen (by decide)) (by decide : 0 < maxNesting)
    simpa [Function.name] using call
  · exact digits

/-- A length. -/
theorem writtenAs_length (hp : IsName p.toList) (hq : IsName q.toList) :
    WrittenAs .atom 0 (length p q).toList (lengthTerm p q : Formula F) := by
  -- the offsets stand in parentheses, and these in those of the call
  have two : 2 ≤ maxNesting := by decide
  have x : WrittenAs .power 1 _ (squareTerm (.binary .sub (xTerm q) (xTerm p)) : Formula F) :=
    writtenAs_square (writtenAs_offset (writtenAs_xOf hq) (writtenAs_xOf hp) two)
  have y : WrittenAs .power 1 _ (squareTerm (.binary .sub (yTerm q) (yTerm p)) : Formula F) :=
    writtenAs_square (writtenAs_offset (writtenAs_yOf hq) (writtenAs_yOf hp) two)
  have sum := WrittenAs.operation .add (x.loosen (by decide)) (y.loosen (by decide))
  have root := writtenAs_of .sqrt sum (by decide)
  unfold length lengthTerm
  simpa [Function.name, Operator.char] using root

/-- Twice the area of a triangle. -/
theorem writtenAs_doubleArea {l0 l1 : String} (hp : IsName p.toList) (h0 : IsName l0.toList)
    (h1 : IsName l1.toList) :
    WrittenAs .atom 0 (doubleArea p l0 l1).toList (doubleAreaTerm p l0 l1 : Formula F) := by
  -- the call, the square and the offsets have parentheses
  have three : 3 ≤ maxNesting := by decide
  have first := writtenAs_product (F := F)
    (writtenAs_offset (writtenAs_yOf h1) (writtenAs_yOf h0) three) (writtenAs_xOf hp)
  have second := writtenAs_product (F := F)
    (writtenAs_offset (writtenAs_xOf h1) (writtenAs_xOf h0) three) (writtenAs_yOf hp)
  have third : WrittenAs .product 2 _ (.binary .mul (xTerm l1) (yTerm l0) : Formula F) :=
    writtenAs_product (writtenAs_xOf h1) (writtenAs_yOf h0)
  have fourth : WrittenAs .product 2 _ (.binary .mul (yTerm l1) (xTerm l0) : Formula F) :=
    writtenAs_product (writtenAs_yOf h1) (writtenAs_xOf h0)
  have sum : WrittenAs .sum 2 _ _ :=
    (((first.loosen (by decide)).spacedOperation .sub second).spacedOperation .add
      third).spacedOperation .sub fourth
  have square := writtenAs_square (sum.group (by decide))
  have root := writtenAs_of .sqrt (square.loosen (by decide)) (by decide)
  unfold doubleArea doubleAreaTerm
  simpa [Function.name, Operator.char] using root

/-- A cross product. -/
theorem writtenAs_cross {a0 a1 b0 b1 : String} (ha0 : IsName a0.toList) (ha1 : IsName a1.toList)
    (hb0 : IsName b0.toList) (hb1 : IsName b1.toList) :
    WrittenAs .sum 0 (cross a0 a1 b0 b1).toList (crossTerm a0 a1 b0 b1 : Formula F) := by
  have one : 1 ≤ maxNesting := by decide
  -- the first factor alone has blanks
  have spaced : WrittenAs .sum 1 _ (.binary .sub (xTerm a0) (xTerm a1) : Formula F) :=
    ((writtenAs_xOf ha0).loosen (by decide)).spacedOperation .sub
      ((writtenAs_xOf ha1).loosen (by decide))
  have first := writtenAs_product (spaced.group one)
    (writtenAs_offset (writtenAs_yOf hb1) (writtenAs_yOf hb0) one)
  have second := writtenAs_product (F := F)
    (writtenAs_offset (writtenAs_yOf ha1) (writtenAs_yOf ha0) one)
    (writtenAs_offset (writtenAs_xOf hb1) (writtenAs_xOf hb0) one)
  have sum : WrittenAs .sum 0 _ _ := (first.loosen (by decide)).spacedOperation .add second
  unfold cross crossTerm
  simpa [Operator.char] using sum

/-! ### Whole texts -/

/-- All equations but one are differences. -/
theorem ofText_difference {level : Level} {a b : String} (ha : WrittenAs level 0 a.toList l)
    (hb : WrittenAs .atom 0 b.toList r) : ofText (difference a b) = .ok (.binary .sub l r) := by
  have written : WrittenAs .sum 0 _ _ :=
    (ha.loosen (by cases level <;> decide)).spacedOperation .sub (hb.loosen (by decide))
  refine WrittenAs.ofText_eq ?_
  simpa [difference, Operator.char] using written

/-- **The texts of a constraint are read as its formulas.** -/
theorem ofText_equations {c : Constraint F} (hids : ∀ id ∈ c.ids, IsName id.toList)
    (hnumerals : ∀ x ∈ c.parameters, IsDecimal (Scalar.text (Scalar.abs x)).toList)
    (hreads : ∀ x ∈ c.parameters, Scalar.ReadsBack (Scalar.abs x)) {texts : List String}
    (h : c.equations = .ok texts) :
    List.Forall₂ (fun text e => ofText text = .ok e) texts c.terms := by
  -- all numbers in the texts are literals of parameters
  have number (x : F) (hx : x ∈ c.parameters) {text : String} (htext : literal x = .ok text) :
      WrittenAs .atom 0 text.toList (literalTerm x) :=
    writtenAs_literal (hnumerals x hx) (hreads x hx) htext
  cases c with
  | distance a b d =>
    obtain ⟨ha, hb⟩ : IsName a.toList ∧ IsName b.toList := by simpa [ids] using hids
    obtain ⟨text, htext, h⟩ := bind_eq_ok.mp h
    cases h
    have value := number d (by simp [parameters]) htext
    exact .cons (ofText_difference value (writtenAs_length ha hb)) .nil
  | pointOnLine p l0 l1 d =>
    obtain ⟨hp, h0, h1⟩ : IsName p.toList ∧ IsName l0.toList ∧ IsName l1.toList := by
      simpa [ids] using hids
    obtain ⟨text, htext, h⟩ := bind_eq_ok.mp h
    cases h
    have value := number d (by simp [parameters]) htext
    have height := writtenAs_quotient (writtenAs_doubleArea (F := F) hp h0 h1)
      (writtenAs_length h0 h1)
    exact .cons (ofText_difference height value) .nil
  | equalLength a0 a1 b0 b1 =>
    obtain ⟨ha0, ha1, hb0, hb1⟩ : IsName a0.toList ∧ IsName a1.toList ∧ IsName b0.toList ∧
        IsName b1.toList := by simpa [ids] using hids
    cases h
    exact .cons (ofText_difference (writtenAs_length hb0 hb1) (writtenAs_length ha0 ha1)) .nil
  | parallel a0 a1 b0 b1 =>
    obtain ⟨ha0, ha1, hb0, hb1⟩ : IsName a0.toList ∧ IsName a1.toList ∧ IsName b0.toList ∧
        IsName b1.toList := by simpa [ids] using hids
    cases h
    exact .cons (writtenAs_cross ha0 ha1 hb0 hb1).ofText_eq .nil
  | coincident a b =>
    obtain ⟨ha, hb⟩ : IsName a.toList ∧ IsName b.toList := by simpa [ids] using hids
    cases h
    exact .cons (ofText_difference (writtenAs_xOf ha) (writtenAs_xOf hb))
      (.cons (ofText_difference (writtenAs_yOf ha) (writtenAs_yOf hb)) .nil)
  | horizontal a b =>
    obtain ⟨ha, hb⟩ : IsName a.toList ∧ IsName b.toList := by simpa [ids] using hids
    cases h
    exact .cons (ofText_difference (writtenAs_yOf ha) (writtenAs_yOf hb)) .nil
  | vertical a b =>
    obtain ⟨ha, hb⟩ : IsName a.toList ∧ IsName b.toList := by simpa [ids] using hids
    cases h
    exact .cons (ofText_difference (writtenAs_xOf ha) (writtenAs_xOf hb)) .nil
  | fix p x y =>
    have hp : IsName p.toList := by simpa [ids] using hids
    obtain ⟨xText, hx, h⟩ := bind_eq_ok.mp h
    obtain ⟨yText, hy, h⟩ := bind_eq_ok.mp h
    cases h
    have first := number x (by simp [parameters]) hx
    have second := number y (by simp [parameters]) hy
    exact .cons (ofText_difference first (writtenAs_xOf hp))
      (.cons (ofText_difference second (writtenAs_yOf hp)) .nil)

end Constraint

end Drafting
