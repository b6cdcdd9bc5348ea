import Drafting.Proofs.Double.Digits
import Drafting.Proofs.Exact.Real
import Drafting.Proofs.Formula.Writing

namespace Drafting

/-!
# Exact decimal text

In exact arithmetic positional notation is read as the number that it writes.  So numbers with a
finite decimal expansion can be printed without loss; the real numbers are given such texts here.

* `Decimal.ofDecimal_plainChars` — positional notation is read as what it writes;
* `ExactTexts` — scalars whose finite numbers are written as numerals that are read back;
* `PrintedReal` — the real numbers, of which those with a decimal expansion count as finite.
-/

open Lexer

/-! ### Numerals -/

namespace Numeral

/-- More digits. -/
theorem foldl_digits {n : Numeral} {ds : List Char} (h : ∀ d ∈ ds, d.isDigit = true) :
    (ds.foldl add n).digits = Nat.ofDigitChars 10 ds n.digits ∧
      (ds.foldl add n).places = n.places + (if n.hasPoint then ds.length else 0) := by
  induction ds generalizing n with
  | nil => simp
  | cons d rest ih =>
    obtain ⟨hd, hrest⟩ := List.forall_mem_cons.mp h
    obtain ⟨digits, places⟩ := ih (n := n.add d) hrest
    rw [List.foldl_cons, digits, places, Nat.ofDigitChars_cons, add, if_pos hd, addDigit]
    refine ⟨rfl, ?_⟩
    cases n.hasPoint <;> simp; omega

/-- Digits alone. -/
theorem ofChars_digits {ds : List Char} (h : ∀ d ∈ ds, d.isDigit = true) :
    (ofChars ds).digits = Nat.ofDigitChars 10 ds 0 ∧ (ofChars ds).places = 0 := by
  simpa [ofChars, empty] using foldl_digits (n := empty) h

/-- Digits with a point between them. -/
theorem ofChars_point {ds fs : List Char} (hds : ∀ d ∈ ds, d.isDigit = true)
    (hfs : ∀ d ∈ fs, d.isDigit = true) :
    (ofChars (ds ++ '.' :: fs)).digits = Nat.ofDigitChars 10 (ds ++ fs) 0 ∧
      (ofChars (ds ++ '.' :: fs)).places = fs.length := by
  obtain ⟨digits, places⟩ := ofChars_digits hds
  obtain ⟨digits', places'⟩ := foldl_digits (n := (ofChars ds).addPoint) hfs
  have point : ofChars (ds ++ '.' :: fs) = fs.foldl add (ofChars ds).addPoint := by
    rw [ofChars, List.foldl_append]
    rfl
  rw [point, digits', places', Nat.ofDigitChars_append, addPoint, ← digits, places]
  exact ⟨rfl, by simp⟩

end Numeral

namespace Decimal

/-- The numeral that positional notation is. -/
theorem ofChars_plainChars (d : Decimal) :
    (Numeral.ofChars d.plainChars).digits = d.digits * 10 ^ d.exponent.toNat ∧
      (Numeral.ofChars d.plainChars).places = (-d.exponent).toNat := by
  have digits := isDigit_digitChars d.digits
  have read : Nat.ofDigitChars 10 (digitChars d.digits) 0 = d.digits :=
    Nat.ofDigitChars_ten_toDigits
  unfold plainChars
  dsimp only
  split
  · next nonneg =>
    obtain ⟨hdigits, hplaces⟩ := Numeral.ofChars_digits
      (List.forall_mem_append.mpr ⟨digits, isDigit_zeros d.exponent.toNat⟩)
    rw [hdigits, hplaces, Nat.ofDigitChars_append, read, Nat.ofDigitChars_replicate_zero]
    exact ⟨Nat.mul_comm _ _, by omega⟩
  next neg =>
  rw [Int.toNat_of_nonpos (by omega : d.exponent ≤ 0), Nat.pow_zero, Nat.mul_one]
  split
  · next short =>
    obtain ⟨hdigits, hplaces⟩ := Numeral.ofChars_point
      (fun c hc => digits c (List.mem_of_mem_take hc))
      (fun c hc => digits c (List.mem_of_mem_drop hc))
    rw [withPoint, hdigits, hplaces, List.take_append_drop, read, List.length_drop,
      Nat.sub_sub_self short.le]
    exact ⟨rfl, rfl⟩
  · next long =>
    have zero : ∀ c ∈ ['0'], c.isDigit = true := List.forall_mem_singleton.mpr (by decide)
    obtain ⟨hdigits, hplaces⟩ := Numeral.ofChars_point zero (List.forall_mem_append.mpr
      ⟨isDigit_zeros ((-d.exponent).toNat - (digitChars d.digits).length), digits⟩)
    rw [List.singleton_append] at hdigits hplaces
    rw [hdigits, hplaces, List.length_append, List.length_replicate]
    -- zeros in front add nothing
    refine ⟨?_, by omega⟩
    rw [List.singleton_append, Nat.ofDigitChars_cons, Nat.ofDigitChars_append,
      Nat.ofDigitChars_replicate_zero]
    exact read

/-- **Positional notation is read as what it writes.** -/
theorem ofDecimal_plainChars {K : Type} [ExactScalar K] (d : Decimal)
    (h10 : (10 : K) ≠ 0) :
    (Scalar.ofDecimal (Numeral.ofChars d.plainChars).digits
      (Numeral.ofChars d.plainChars).places : K) = d.digits * 10 ^ d.exponent := by
  obtain ⟨hdigits, hplaces⟩ := d.ofChars_plainChars
  have exponent : d.exponent = d.exponent.toNat - (-d.exponent).toNat := by omega
  rw [ExactScalar.ofDecimal_eq, hdigits, hplaces]
  conv_rhs => rw [exponent]
  rw [zpow_sub₀ h10, zpow_natCast, zpow_natCast]
  push_cast
  rw [mul_div_assoc]

end Decimal

/-! ### Scalars that are printed without loss -/

/-- What is finite is written, but for its sign, as a numeral that is read back. -/
class ExactTexts (K : Type) [ExactScalar K] : Prop where
  isDecimal_text (x : K) (h : Scalar.isFinite x = true) :
    IsDecimal (Scalar.text (Scalar.abs x)).toList
  readsBack (x : K) (h : Scalar.isFinite x = true) : Scalar.ReadsBack (Scalar.abs x)

/-- The real numbers with decimal texts. -/
def PrintedReal : Type := ℝ

namespace PrintedReal

/-- The same number, without its texts. -/
def toReal (x : PrintedReal) : ℝ := x

/-- The absolute value has a finite decimal expansion. -/
def HasDecimal (x : PrintedReal) : Prop :=
  ∃ d : Decimal, (d.digits : ℝ) * (10 : ℕ) ^ d.exponent = |x.toReal|

noncomputable instance (x : PrintedReal) : Decidable x.HasDecimal := Classical.propDecidable _

noncomputable instance : LinearOrder PrintedReal := inferInstanceAs (LinearOrder ℝ)

noncomputable instance : ExactScalar PrintedReal where
  __ := (show ExactScalar PrintedReal from (inferInstance : ExactScalar ℝ))
  isFinite x := decide x.HasDecimal
  text x :=
    if h : x.HasDecimal then (if x.toReal < 0 then "-" else "") ++ h.choose.plain else ""

instance : IsStrictOrderedRing PrintedReal :=
  show IsStrictOrderedRing PrintedReal from (inferInstance : IsStrictOrderedRing ℝ)

instance : ExactOrder PrintedReal where
  less_iff := ExactOrder.less_iff (K := ℝ)
  abs_eq := ExactOrder.abs_eq (K := ℝ)

instance : ExactPowers PrintedReal where
  isWhole_intCast := ExactPowers.isWhole_intCast (K := ℝ)
  less_zero_intCast := ExactPowers.less_zero_intCast (K := ℝ)
  wholePart_intCast := ExactPowers.wholePart_intCast (K := ℝ)
  pow_intCast := ExactPowers.pow_intCast (K := ℝ)

instance : ExactRoots PrintedReal where
  sqrt_nonneg := ExactRoots.sqrt_nonneg (K := ℝ)
  sq_sqrt := ExactRoots.sq_sqrt (K := ℝ)

/-- The text of an absolute value is a decimal expansion of it. -/
theorem text_abs {x : PrintedReal} (h : x.HasDecimal) : ∃ d : Decimal,
    Scalar.text (Scalar.abs x) = d.plain ∧
      (d.digits : PrintedReal) * 10 ^ d.exponent = Scalar.abs x := by
  have twice : |toReal (Scalar.abs x)| = toReal (Scalar.abs x) := abs_abs x.toReal
  have same : HasDecimal (Scalar.abs x) := by
    obtain ⟨d, hd⟩ := h
    exact ⟨d, hd.trans twice.symm⟩
  have nonneg : ¬ toReal (Scalar.abs x) < 0 := not_lt.mpr (abs_nonneg x.toReal)
  refine ⟨same.choose, ?_, same.choose_spec.trans twice⟩
  show dite _ _ _ = _
  rw [dif_pos same, if_neg nonneg, String.empty_append]

/-- Natural numbers have a decimal expansion. -/
theorem isFinite_natCast (n : ℕ) : Scalar.isFinite (n : PrintedReal) = true := by
  refine decide_eq_true ⟨⟨n, 0⟩, ?_⟩
  show (n : ℝ) * 10 ^ (0 : ℤ) = |(n : ℝ)|
  simp

instance : ExactTexts PrintedReal where
  isDecimal_text x h := by
    obtain ⟨d, htext, -⟩ := text_abs (of_decide_eq_true h)
    rw [htext, Decimal.plain, String.toList_ofList]
    exact Decimal.isDecimal_plainChars d
  readsBack x h := by
    obtain ⟨d, htext, hvalue⟩ := text_abs (of_decide_eq_true h)
    rw [Scalar.ReadsBack, htext, Decimal.plain, String.toList_ofList, ← hvalue]
    exact d.ofDecimal_plainChars (OfNat.ofNat_ne_zero 10)

end PrintedReal

end Drafting
