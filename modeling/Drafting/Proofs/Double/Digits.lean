import Drafting.Proofs.Double.Place
import Drafting.Proofs.Formula.Lexing

namespace Drafting

/-!
# Doubles are written as numerals

The text of a finite double that is not negative is a numeral as formulas have it: digits with at
most one point, and neither a sign nor an exponent, however large or small the double is.

* `Decimal.isDecimal_plainChars` — positional notation;
* `Double.IsUnsigned` — finite doubles without a minus sign;
* `Double.isDecimal_text`, `Double.isDecimal_text_abs` — texts of doubles.
-/

open Lexer

/-! ### Positional notation -/

/-- Digits alone are a numeral. -/
theorem Lexer.isDecimal_digits {ds : List Char} (h : ∀ d ∈ ds, d.isDigit = true) (hne : ds ≠ []) :
    IsDecimal ds where
  chars := fun d hd => .inl (h d hd)
  digit := by
    obtain ⟨d, hd⟩ := List.exists_mem_of_ne_nil ds hne
    exact ⟨d, hd, h d hd⟩
  point := by
    have none : '.' ∉ ds := fun hmem => absurd (h '.' hmem) (by decide)
    rw [List.count_eq_zero_of_not_mem none]
    exact Nat.zero_le 1

/-- So are digits with a point between them. -/
theorem Lexer.isDecimal_point {ds fs : List Char} (hds : ∀ d ∈ ds, d.isDigit = true)
    (hfs : ∀ d ∈ fs, d.isDigit = true) (hne : ds ++ fs ≠ []) : IsDecimal (ds ++ '.' :: fs) where
  chars := by
    intro c hc
    simp only [List.mem_append, List.mem_cons] at hc
    rcases hc with hc | rfl | hc
    · exact .inl (hds c hc)
    · exact .inr rfl
    · exact .inl (hfs c hc)
  digit := by
    obtain ⟨d, hd⟩ := List.exists_mem_of_ne_nil _ hne
    rcases List.mem_append.mp hd with hd | hd
    · exact ⟨d, by simp [hd], hds d hd⟩
    · exact ⟨d, by simp [hd], hfs d hd⟩
  point := by
    have left : '.' ∉ ds := fun hmem => absurd (hds '.' hmem) (by decide)
    have right : '.' ∉ fs := fun hmem => absurd (hfs '.' hmem) (by decide)
    simp [List.count_eq_zero_of_not_mem left, List.count_eq_zero_of_not_mem right]

namespace Decimal

theorem isDigit_digitChars (n : Nat) : ∀ c ∈ digitChars n, c.isDigit = true :=
  fun _ hc => Nat.isDigit_of_mem_toDigits (by decide) (by decide) hc

theorem isDigit_zeros (n : Nat) : ∀ c ∈ List.replicate n '0', c.isDigit = true := by
  intro c hc
  rw [List.eq_of_mem_replicate hc]
  decide

/-- **Positional notation is a numeral.** -/
theorem isDecimal_plainChars (d : Decimal) : IsDecimal d.plainChars := by
  have digits := isDigit_digitChars d.digits
  have some : digitChars d.digits ≠ [] := Nat.toDigits_ne_nil
  unfold plainChars
  dsimp only
  split
  · refine isDecimal_digits (fun c hc => ?_) (by simp [some])
    exact (List.mem_append.mp hc).elim (digits c) (isDigit_zeros _ c)
  split
  · refine isDecimal_point (fun c hc => digits c (List.mem_of_mem_take hc))
      (fun c hc => digits c (List.mem_of_mem_drop hc)) ?_
    rwa [List.take_append_drop]
  · have zero : ∀ d ∈ ['0'], d.isDigit = true := List.forall_mem_singleton.mpr (by decide)
    refine isDecimal_point zero (fun c hc => ?_) (by simp)
    exact (List.mem_append.mp hc).elim (isDigit_zeros _ c) (digits c)

end Decimal

/-! ### Texts of doubles -/

namespace Double

open Float.Model Float.Model.UnpackedFloat

/-- The place of a number that is not too large. -/
theorem Canonical.place_lt {m : Nat} {e : Int} (h : Canonical m e) (he : e ≤ 971) :
    place m e < 2047 * 2 ^ 52 := by
  have lt := h.lt
  have least := h.le
  unfold place
  omega

/-- A finite double without a minus sign. -/
def IsUnsigned (x : Float) : Prop := ∃ m e, Binary64.ofFloat x = .finite false m e

/-- The first places are those of the finite doubles without a minus sign. -/
theorem isUnsigned_of_lt {x : Float} (h : bits x < 2047 * 2 ^ 52) : IsUnsigned x := by
  have twoPow (n : Nat) : Binary64.twoPow n = 2 ^ n := rfl
  have positive : ¬ 2 ^ 63 ≤ x.toBits.toNat := by
    show ¬ 2 ^ 63 ≤ bits x
    omega
  have finite : x.toBits.toNat / 2 ^ 52 % 2 ^ 11 ≠ 2 ^ 11 - 1 := by
    show bits x / 2 ^ 52 % 2 ^ 11 ≠ 2 ^ 11 - 1
    omega
  -- the sign bit is not set, and the exponent is not the largest one
  unfold IsUnsigned Binary64.ofFloat Binary64.ofBits
  simp only [twoPow, positive, decide_false]
  rw [if_neg finite]
  split
  · exact ⟨_, _, rfl⟩
  · exact ⟨_, _, rfl⟩

/-- So a finite double has no minus sign if its sign is positive. -/
theorem isUnsigned_of_sign {x : Float} (hsign : sign x.toModel.unpack = .positive)
    (hfinite : Scalar.isFinite x = true) : IsUnsigned x := by
  have finite : x.toModel.unpack.isFinite = true := hfinite
  refine isUnsigned_of_lt ?_
  rcases hu : x.toModel.unpack with s | _ | s | ⟨s, m, e, hm⟩ <;> rw [hu] at hsign finite
  · cases finite
  · cases finite
  · obtain rfl : s = .positive := hsign
    rw [bits_of_unpack_zero hu]
    decide
  · obtain rfl : s = .positive := hsign
    obtain ⟨-, canonical, le, -⟩ := unpack_cases _ hu
    rw [(bits_of_unpack hu).2]
    exact canonical.place_lt le

/-- The absolute value of a finite double has none. -/
theorem isUnsigned_abs {x : Float} (h : Scalar.isFinite x = true) :
    IsUnsigned (Scalar.abs x) := by
  have finite : x.toModel.unpack.isFinite = true := h
  refine isUnsigned_of_lt ?_
  show (Float.Model.pack x.toModel.unpack.abs).toBits.toNat < 2047 * 2 ^ 52
  rcases hu : x.toModel.unpack with s | _ | s | ⟨s, m, e, hm⟩ <;> rw [hu] at finite
  · cases finite
  · cases finite
  · show (Float.Model.pack (.zero .positive)).toBits.toNat < 2047 * 2 ^ 52
    decide +kernel
  · obtain ⟨-, canonical, le, -⟩ := unpack_cases _ hu
    rw [UnpackedFloat.abs, toNat_pack canonical le]
    exact canonical.place_lt le

/-- **A finite double without a minus sign is written as a numeral.** -/
theorem isDecimal_text {x : Float} (h : IsUnsigned x) : IsDecimal (Scalar.text x).toList := by
  obtain ⟨m, e, hbits⟩ := h
  have text : Scalar.text x = (Binary64.shortest m e).plain := by
    show (Binary64.ofFloat x).text = _
    rw [hbits]
    rfl
  rw [text, Decimal.plain, String.toList_ofList]
  exact Decimal.isDecimal_plainChars _

/-- So is every finite double, but for its sign. -/
theorem isDecimal_text_abs {x : Float} (h : Scalar.isFinite x = true) :
    IsDecimal (Scalar.text (Scalar.abs x)).toList :=
  isDecimal_text (isUnsigned_abs h)

end Double

end Drafting
