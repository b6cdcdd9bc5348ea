import Mathlib
import Drafting.Proofs.Formula.Tokens
import Drafting.Text.Lowercase

namespace Drafting.Text

/-!
# Two ways of folding case

Names are folded in two ways: either to their full lower case, or in the letters `A` to `Z` alone.
Names that agree in the second way agree in the first.  The converse fails even where the lower case
is ASCII, but only for one character: the sign for kelvin has the lower case `k`.

* `lowercase_asciiFold` — the full lower case does not depend on the case of ASCII letters;
* `lowerChar_beyond` — only the Kelvin sign gets into ASCII;
* `sameName_iff_lowercase` — names that are the same as an ASCII name.
-/

variable {a b key name : String} {c : Char} {before after cs : List Char}

/-! ### From ASCII letters to all -/

/-- No ASCII letter is skipped when one asks what stands next to a character, -/
theorem not_caseIgnorable (hc : c.isAlpha = true) : inRanges caseIgnorableRanges c = false := by
  have apart : ∀ r ∈ caseIgnorableRanges, r.2 < 65 ∨ (90 < r.1 ∧ r.2 < 97) ∨ 122 < r.1 := by
    decide +kernel
  rw [inRanges, List.any_eq_false]
  intro r hr hin
  have bounds := apart r hr
  simp only [Bool.and_eq_true, decide_eq_true_eq] at hin
  rcases Bool.or_eq_true_iff.mp hc with hupper | hlower
  · rw [Lexer.isUpper_iff] at hupper
    omega
  · rw [Lexer.isLower_iff] at hlower
    omega

/-- and all of them are cased. -/
theorem cased_of_isAlpha (hc : c.isAlpha = true) : inRanges casedRanges c = true := by
  have capitals : (65, 90) ∈ casedRanges := by decide +kernel
  have smalls : (97, 122) ∈ casedRanges := by decide +kernel
  rw [inRanges, List.any_eq_true]
  rcases Bool.or_eq_true_iff.mp hc with hupper | hlower
  · exact ⟨_, capitals, by simpa using Lexer.isUpper_iff.mp hupper⟩
  · exact ⟨_, smalls, by simpa using Lexer.isLower_iff.mp hlower⟩

/-- A property that all ASCII letters agree on does not depend on their case. -/
theorem toLower_eq_of_isAlpha {p : Char → Bool} {v : Bool} (h : ∀ c, c.isAlpha = true → p c = v)
    (c : Char) : p c.toLower = p c := by
  by_cases hc : c.isUpper = true
  · rw [h c (Bool.or_eq_true_iff.mpr (.inl hc)),
      h _ (Bool.or_eq_true_iff.mpr (.inr (Lexer.isLower_toLower hc)))]
  · rw [Lexer.toLower_of_not_isUpper hc]

/-- Whether a cased letter comes next does not depend on its case. -/
theorem startsCased_map_toLower (cs : List Char) :
    startsCased (cs.map Char.toLower) = startsCased cs := by
  have skipped : inRanges caseIgnorableRanges ∘ Char.toLower = inRanges caseIgnorableRanges :=
    funext (toLower_eq_of_isAlpha fun _ => not_caseIgnorable)
  rw [startsCased, startsCased, List.dropWhile_map, skipped]
  cases cs.dropWhile (inRanges caseIgnorableRanges) with
  | nil => rfl
  | cons c rest => exact toLower_eq_of_isAlpha (fun _ => cased_of_isAlpha) c

theorem toNat_toLower_lt (hc : c.isUpper = true) : c.toLower.toNat < 128 := by
  have := (Lexer.isLower_iff.mp (Lexer.isLower_toLower hc)).2
  omega

/-- Neither the letter nor its neighbours need to keep their case. -/
theorem lowerInContext_toLower (before : List Char) (c : Char) (after : List Char) :
    lowerInContext (before.map Char.toLower) c.toLower (after.map Char.toLower)
      = lowerInContext before c after := by
  by_cases hc : c.isUpper = true
  · have small : c.toNat < 128 := by
      have := (Lexer.isUpper_iff.mp hc).2
      omega
    rw [lowerInContext_ascii small, lowerInContext_ascii (toNat_toLower_lt hc),
      Char.toLower_toLower_eq_toLower]
  · rw [Lexer.toLower_of_not_isUpper hc, lowerInContext, lowerInContext, startsCased_map_toLower,
      startsCased_map_toLower]

/-- The lower case of a text does not depend on the case of its ASCII letters. -/
theorem lowerFrom_map_toLower (before cs : List Char) :
    lowerFrom (before.map Char.toLower) (cs.map Char.toLower) = lowerFrom before cs := by
  induction cs generalizing before with
  | nil => rfl
  | cons c rest ih =>
    rw [List.map_cons, lowerFrom, lowerFrom, lowerInContext_toLower, ← ih (c :: before),
      List.map_cons]

/-- **The lower case does not depend on the case of ASCII letters.** -/
theorem lowercase_asciiFold (s : String) : lowercase (asciiFold s) = lowercase s := by
  rw [lowercase, lowercase, asciiFold, String.toList_ofList]
  exact congrArg String.ofList (lowerFrom_map_toLower [] s.toList)

/-- Names that are the same have the same lower case. -/
theorem lowercase_eq_of_sameName (h : sameName a b = true) : lowercase a = lowercase b := by
  have folded : asciiFold a = asciiFold b := by rwa [sameName, beq_iff_eq] at h
  rw [← lowercase_asciiFold a, folded, lowercase_asciiFold]

/-! ### From lower case back to ASCII -/

/-- The sign for kelvin. -/
def kelvin : Char := '\u212A'

/-- All runs but that of the Kelvin sign lead to characters beyond ASCII. -/
theorem beyond_of_mem_caseRuns : ∀ r ∈ caseRuns,
    (r.first = kelvin.toNat ∧ r.last = kelvin.toNat) ∨
      (128 ≤ r.first + r.shift ∧ r.last + r.shift < 0xD800) ∨
      (0xDFFF < r.first + r.shift ∧ r.last + r.shift < 0x110000) := by
  decide +kernel

/-- **Only the Kelvin sign gets into ASCII.** -/
theorem lowerChar_beyond (h : 128 ≤ c.toNat) (hc : c ≠ kelvin) : 128 ≤ (lowerChar c).toNat := by
  rw [lowerChar, if_neg (Nat.not_lt.mpr h)]
  split
  · next r hr =>
    have holds : r.holds c.toNat = true := by simpa using List.find?_some hr
    simp only [CaseRun.holds, Bool.and_eq_true, decide_eq_true_eq] at holds
    obtain ⟨⟨hfirst, hlast⟩, -⟩ := holds
    rcases beyond_of_mem_caseRuns r (List.mem_of_find?_eq_some hr) with ⟨hf, hl⟩ | bounds
    · have same : c.toNat = kelvin.toNat := by omega
      exact absurd (Char.ext (UInt32.toNat_inj.mp same)) hc
    · -- the partner is a character, and its number is that of the run
      have valid : ((c.toNat : Int) + r.shift).toNat.isValidChar := by
        unfold Nat.isValidChar
        omega
      rw [Char.toNat_ofNat, if_pos valid]
      omega
  · exact h

/-- The lower case of a character beyond ASCII has a character beyond ASCII in it, unless the
    character is the Kelvin sign. -/
theorem exists_beyond (h : 128 ≤ c.toNat) (hc : c ≠ kelvin) (before after : List Char) :
    ∃ d ∈ lowerInContext before c after, 128 ≤ d.toNat := by
  unfold lowerInContext
  split
  · split
    · exact ⟨'ς', List.mem_singleton_self _, by decide⟩
    · exact ⟨'σ', List.mem_singleton_self _, by decide⟩
  · split
    · exact ⟨'\u0307', by simp, by decide⟩
    · exact ⟨lowerChar c, List.mem_singleton_self _, lowerChar_beyond h hc⟩

/-- A text whose lower case is ASCII only is ASCII only itself, but for Kelvin signs. -/
theorem toNat_lt_of_lowerFrom (h : ∀ d ∈ lowerFrom before cs, d.toNat < 128) (hk : kelvin ∉ cs) :
    ∀ c ∈ cs, c.toNat < 128 := by
  induction cs generalizing before with
  | nil => exact nofun
  | cons c rest ih =>
    rw [lowerFrom, List.forall_mem_append] at h
    rw [List.mem_cons, not_or] at hk
    refine List.forall_mem_cons.mpr ⟨?_, ih h.2 hk.2⟩
    by_contra hlarge
    obtain ⟨d, hd, hbeyond⟩ := exists_beyond (Nat.not_lt.mp hlarge) (Ne.symm hk.1) before rest
    exact absurd (h.1 d hd) (Nat.not_lt.mpr hbeyond)

/-- A text is ASCII if it is after its ASCII letters are folded. -/
theorem toNat_lt_of_asciiFold (h : ∀ d ∈ (asciiFold key).toList, d.toNat < 128) :
    ∀ c ∈ key.toList, c.toNat < 128 := by
  intro c hc
  by_cases hupper : c.isUpper = true
  · have := (Lexer.isUpper_iff.mp hupper).2
    omega
  · rw [asciiFold, String.toList_ofList] at h
    have small := h c.toLower (List.mem_map_of_mem hc)
    rwa [Lexer.toLower_of_not_isUpper hupper] at small

/-- **Names that are the same as an ASCII name.**  They have it as their lower case, and there is no
    Kelvin sign in them. -/
theorem sameName_iff_lowercase (hascii : ∀ c ∈ name.toList, c.toNat < 128)
    (hfold : asciiFold name = name) :
    sameName key name = true ↔ lowercase key = name ∧ kelvin ∉ key.toList := by
  rw [sameName, hfold, beq_iff_eq]
  constructor
  · rintro rfl
    have small := toNat_lt_of_asciiFold hascii
    refine ⟨lowercase_eq_asciiFold small, fun hk => ?_⟩
    exact absurd (small kelvin hk) (by decide)
  · rintro ⟨rfl, hk⟩
    have small : ∀ c ∈ key.toList, c.toNat < 128 := by
      rw [lowercase, String.toList_ofList] at hascii
      exact toNat_lt_of_lowerFrom hascii hk
    exact (lowercase_eq_asciiFold small).symm

end Drafting.Text
