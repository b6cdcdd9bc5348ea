namespace Drafting.Text

/-!
# Blank characters

The characters that separate tokens of a formula and mean nothing else: those with the Unicode
property `White_Space`.
-/

/-- Ranges of blank characters, in ascending order. -/
def blankRanges : List (Nat × Nat) :=
  [(0x09, 0x0D), (0x20, 0x20), (0x85, 0x85), (0xA0, 0xA0), (0x1680, 0x1680), (0x2000, 0x200A),
    (0x2028, 0x2029), (0x202F, 0x202F), (0x205F, 0x205F), (0x3000, 0x3000)]

/-- Does `c` lie in one of the ranges? -/
def inRanges (ranges : List (Nat × Nat)) (c : Char) : Bool :=
  ranges.any fun r => r.1 ≤ c.toNat && c.toNat ≤ r.2

/-- Tabs, line ends and spaces of every width. -/
def isBlank (c : Char) : Bool := inRanges blankRanges c

/-- There are twenty-five blank characters. -/
example : (blankRanges.map fun r => r.2 + 1 - r.1).sum = 25 := by decide

end Drafting.Text
