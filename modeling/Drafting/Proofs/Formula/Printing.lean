import Drafting.Proofs.Double.Numerals
import Drafting.Proofs.Formula.Names
import Drafting.Proofs.Formula.Writing

namespace Drafting

/-!
# Formulas are read back from their texts

The text of a formula has parentheses around every operation and behind the name of every call, so
that it nests as deep as the formula is high.  What the text of a formula of height 256 says is the
formula itself, as long as its names are plain and its numbers are written as numerals that are read
back.  Formulas that were read from a text are of this kind.

* `Formula.height` — how many operations and calls stand above each other;
* `Formula.Printable` — names and numbers that can be read back;
* `Formula.writtenAs_text` — the text of a formula writes it, behind any number of parentheses;
* `Formula.ofText_text` — formulas over doubles are read back from their texts.
-/

variable {F : Type}

namespace Formula

/-! ### Height -/

mutual

/-- The most operations and calls on a way from the formula down to a number or name. -/
def height : Formula F → Nat
  | .number _ | .symbol _ => 0
  | .binary _ l r => max l.height r.height + 1
  | .call _ args => argumentsHeight args + 1

/-- The height of the highest formula of a list. -/
def argumentsHeight : List (Formula F) → Nat
  | [] => 0
  | e :: rest => max e.height (argumentsHeight rest)

end

/-- No argument is higher than the arguments are taken together. -/
theorem height_le_argumentsHeight {e : Formula F} {args : List (Formula F)} (h : e ∈ args) :
    e.height ≤ argumentsHeight args := by
  induction args with
  | nil => cases h
  | cons first rest ih =>
    rw [argumentsHeight]
    rcases List.mem_cons.mp h with rfl | h
    · exact le_max_left _ _
    · exact (ih h).trans (le_max_right _ _)

/-! ### Texts -/

variable [Scalar F]

/-- The text of arguments is their texts with commas and blanks in between. -/
theorem toList_argumentsText (args : List (Formula F)) :
    (argumentsText args).toList = [',', ' '].intercalate (args.map (·.text.toList)) := by
  induction args with
  | nil => rfl
  | cons e rest ih =>
    cases rest with
    | nil => simp [argumentsText]
    | cons e' rest =>
      rw [argumentsText, String.toList_append, String.toList_append, ih]
      simp [List.intercalate_cons_cons]

/-- Names are plain, and numbers are written as numerals that are read back. -/
structure Printable (e : Formula F) : Prop where
  numbers : ∀ x, Part (.number x) e → Lexer.IsDecimal (Scalar.text x).toList ∧ Scalar.ReadsBack x
  symbols : ∀ name, Part (.symbol name) e → Lexer.IsPlainName name.toList
  calls : ∀ name args, Part (.call name args) e → Lexer.IsPlainName name.toList

variable {e e' : Formula F} {depth : Nat}

theorem Printable.part (h : e.Printable) (hpart : Part e' e) : e'.Printable where
  numbers x hx := h.numbers x (hx.trans hpart)
  symbols name hname := h.symbols name (hname.trans hpart)
  calls name args hcall := h.calls name args (hcall.trans hpart)

/-- **The text of a formula writes it.** -/
theorem writtenAs_text (h : e.Printable) (hheight : e.height + depth ≤ maxNesting) :
    WrittenAs .atom depth e.text.toList e := by
  -- every operation and every call has one pair of parentheses around what stands in it
  induction e using induction generalizing depth with
  | number x =>
    obtain ⟨hnumeral, hreads⟩ := h.numbers x .refl
    exact .printed hnumeral hreads
  | symbol name =>
    have plain := h.symbols name .refl
    have written : WrittenAs .atom depth _ (_ : Formula F) := .symbol plain.isName
    rwa [plain.asciiFold_eq] at written
  | binary op l r ihl ihr =>
    rw [height] at hheight
    have left : WrittenAs .atom (depth + 1) _ l := ihl (h.part (.left .refl)) (by omega)
    have right : WrittenAs .atom (depth + 1) _ r := ihr (h.part (.right .refl)) (by omega)
    have inside : WrittenAs op.level (depth + 1) _ _ :=
      .spacedOperation op (left.loosen (by cases op <;> decide))
        (right.loosen (by cases op <;> decide))
    have whole := WrittenAs.group (inside.loosen (by cases op <;> decide)) (by omega)
    simpa [text] using whole
  | call name args ih =>
    rw [height] at hheight
    have plain := h.calls name args .refl
    have each : ∀ a ∈ args.map fun a => (a.text.toList, a), WrittenAs .sum (depth + 1) a.1 a.2 := by
      refine List.forall_mem_map.mpr fun a ha => ?_
      have below := height_le_argumentsHeight ha
      exact (ih a ha (h.part (.argument ha .refl)) (by omega)).loosen (by decide)
    have whole := WrittenAs.call plain.isName each (by omega)
    rw [plain.asciiFold_eq] at whole
    simpa [text, toList_argumentsText, Function.comp_def] using whole

/-- So it is read as the formula. -/
theorem Printable.ofText_eq (h : e.Printable) (hheight : e.height ≤ maxNesting) :
    ofText e.text = .ok e :=
  have written : WrittenAs .atom 0 _ e := writtenAs_text h hheight
  (written.loosen (by decide)).ofText_eq

/-! ### Doubles -/

/-- **Formulas over doubles are read back from their texts**, if they are at most 256 high, their
    names are plain, and their numbers are finite, have no minus sign and are read back.  So are all
    formulas of this height that are read from a text whose numerals do not overflow. -/
theorem ofText_text :
    (∀ e : Formula Float,
      (∀ x, Part (.number x) e → Double.IsUnsigned x) →
      (∀ x, Part (.number x) e → Scalar.ReadsBack x) →
      (∀ name, Part (.symbol name) e → Lexer.IsPlainName name.toList) →
      (∀ name args, Part (.call name args) e → Lexer.IsPlainName name.toList) →
      e.height ≤ 256 → ofText e.text = .ok e) ∧
    ∀ (text : String) (e : Formula Float), ofText text = .ok e →
      (∀ x, Part (.number x) e → Scalar.isFinite x = true) →
      (∀ x, Part (.number x) e → Scalar.ReadsBack x) →
      e.height ≤ 256 → ofText e.text = .ok e := by
  have printed (e : Formula Float) (hunsigned : ∀ x, Part (.number x) e → Double.IsUnsigned x)
      (hreads : ∀ x, Part (.number x) e → Scalar.ReadsBack x)
      (hsymbols : ∀ name, Part (.symbol name) e → Lexer.IsPlainName name.toList)
      (hcalls : ∀ name args, Part (.call name args) e → Lexer.IsPlainName name.toList)
      (hheight : e.height ≤ 256) : ofText e.text = .ok e := by
    have printable : e.Printable :=
      ⟨fun x hx => ⟨Double.isDecimal_text (hunsigned x hx), hreads x hx⟩, hsymbols, hcalls⟩
    exact printable.ofText_eq hheight
  refine ⟨printed, fun text e htext hfinite hreads => printed e (fun x hx => ?_) hreads ?_ ?_⟩
  · -- a number that has been read is a numeral, and these have no sign
    obtain ⟨m, p, rfl⟩ := isPlain_of_ofText htext hx
    exact Double.isUnsigned_ofDecimal (hfinite _ hx)
  · exact fun name hname => isPlain_of_ofText htext hname
  · exact fun name args hcall => isPlain_of_ofText htext hcall

/-- A call with two arguments, the second of which is a call without arguments. -/
def nestedCalls : Formula Float :=
  .binary .pow
    (.call "f" [.binary .add (.symbol "x_1") (.number (Scalar.ofDecimal 25 1)), .call "g" []])
    (.number (Scalar.ofDecimal 3 0))

/-- A formula with calls in calls and a power, and a text whose spelling its print does not keep. -/
theorem ofText_text_nestedCalls :
    nestedCalls.text = "(f((x_1 + 2.5), g()) ^ 3)" ∧ nestedCalls.height ≤ 256 ∧
      ofText nestedCalls.text = .ok nestedCalls ∧
      ∃ e : Formula Float, ofText "1.50/X-2" = .ok e ∧ e.text = "((1.5 / x) - 2)" ∧
        ofText e.text = .ok e := by
  have hnumbers : ∀ x, Part (.number x) nestedCalls →
      x = Scalar.ofDecimal 25 1 ∨ x = Scalar.ofDecimal 3 0 := by simp [nestedCalls]
  have hsymbols : ∀ name, Part (.symbol name) nestedCalls → name = "x_1" := by simp [nestedCalls]
  have hcalls : ∀ name args, Part (.call name args) nestedCalls → name = "f" ∨ name = "g" := by
    intro name args h
    simp [nestedCalls] at h
    exact h.imp And.left And.left
  have hheight : nestedCalls.height ≤ 256 := by decide
  refine ⟨by decide +kernel, hheight,
    ofText_text.1 nestedCalls (fun x hx => ?_) (fun x hx => ?_) (fun name hname => ?_)
      (fun name args hcall => ?_) hheight,
    .binary .sub (.binary .div (.number (Scalar.ofDecimal 150 2)) (.symbol "x"))
      (.number (Scalar.ofDecimal 2 0)), by rfl, by decide +kernel, ?_⟩
  · rcases hnumbers x hx with rfl | rfl <;> exact Double.isUnsigned_ofDecimal (by decide +kernel)
  · rcases hnumbers x hx with rfl | rfl <;> decide +kernel
  · rw [hsymbols name hname]
    decide
  · rcases hcalls name args hcall with rfl | rfl <;> decide
  · refine ofText_text.2 "1.50/X-2" _ (by rfl) ?_ ?_ (by decide)
    · simp
      decide +kernel
    · simp
      decide +kernel

end Formula

end Drafting
