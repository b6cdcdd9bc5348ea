import Drafting.Text.Blank
import Drafting.Text.CaseTable

namespace Drafting.Text

/-!
# Lower case

`lowercase` is the full Unicode mapping: one character may become two, and a capital sigma at the
end of a word becomes the final form.  `asciiFold` touches the letters `A` to `Z` alone.  The two
agree on ASCII text (`lowercase_eq_asciiFold`).
-/

/-- Lower case of a single character, where that is a single character. -/
def lowerChar (c : Char) : Char :=
  if c.toNat < 128 then c.toLower
  else match caseRuns.find? (·.holds c.toNat) with
    | some r => Char.ofNat ((c.toNat : Int) + r.shift).toNat
    | none => c

/-- Is the first character that counts as a neighbour a cased letter? -/
def startsCased (neighbours : List Char) : Bool :=
  match neighbours.dropWhile (inRanges caseIgnorableRanges) with
  | c :: _ => inRanges casedRanges c
  | [] => false

/-- Lower case of one character between its neighbours; `before` lists the characters in front of
    it, nearest first. -/
def lowerInContext (before : List Char) (c : Char) (after : List Char) : List Char :=
  if c = 'Σ' then [if startsCased before && !startsCased after then 'ς' else 'σ']
  else if c = 'İ' then ['i', '\u0307']
  else [lowerChar c]

/-- Lower case of a text whose characters in front are `before`, nearest first. -/
def lowerFrom (before : List Char) : List Char → List Char
  | [] => []
  | c :: rest => lowerInContext before c rest ++ lowerFrom (c :: before) rest

/-- Lower case of a text. -/
def lowercase (s : String) : String := String.ofList (lowerFrom [] s.toList)

/-- Lower case of the ASCII letters; all else stays. -/
def asciiFold (s : String) : String := String.ofList (s.toList.map Char.toLower)

/-- Do two names differ at most in the case of ASCII letters? -/
def sameName (a b : String) : Bool := asciiFold a == asciiFold b

/-! ### Laws -/

/-- An ASCII character has its ASCII lower case, wherever it stands. -/
theorem lowerInContext_ascii {c : Char} (h : c.toNat < 128) (before after : List Char) :
    lowerInContext before c after = [c.toLower] := by
  have sigma : c ≠ 'Σ' := by rintro rfl; revert h; decide
  have dotted : c ≠ 'İ' := by rintro rfl; revert h; decide
  simp [lowerInContext, sigma, dotted, lowerChar, h]

/-- In an ASCII text the lower case of a character does not depend on what stands around it. -/
theorem lowerFrom_ascii {cs : List Char} (h : ∀ c ∈ cs, c.toNat < 128) (before : List Char) :
    lowerFrom before cs = cs.map Char.toLower := by
  induction cs generalizing before with
  | nil => rfl
  | cons c rest ih =>
    rw [lowerFrom, lowerInContext_ascii (h c (by simp)),
      ih (fun d hd => h d (List.mem_cons_of_mem c hd))]
    rfl

/-- On ASCII text the full mapping only folds the ASCII letters. -/
theorem lowercase_eq_asciiFold {s : String} (h : ∀ c ∈ s.toList, c.toNat < 128) :
    lowercase s = asciiFold s := by
  rw [lowercase, asciiFold, lowerFrom_ascii h]

end Drafting.Text
