import Drafting.Decimal.Shortest

namespace Drafting.Decimal

/-!
# Positional decimal text

`Decimal.plain` writes a decimal without an exponent: zeros fill the places up to the point, a
fraction starts with `0.`, and a whole number has no point.
-/

/-- The digits of `n`, most significant first. -/
def digitChars (n : Nat) : List Char := Nat.toDigits 10 n

/-- Digits with the point after the first `whole` of them, where there are digits left. -/
def withPoint (digits : List Char) (whole : Nat) : List Char :=
  digits.take whole ++ '.' :: digits.drop whole

/-- The characters of `plain`. -/
def plainChars (d : Decimal) : List Char :=
  let digits := digitChars d.digits
  if 0 ≤ d.exponent then digits ++ List.replicate d.exponent.toNat '0'
  else
    let places := (-d.exponent).toNat
    if places < digits.length then withPoint digits (digits.length - places)
    else '0' :: '.' :: (List.replicate (places - digits.length) '0' ++ digits)

/-- Positional notation, as long as it takes. -/
def plain (d : Decimal) : String := String.ofList d.plainChars

end Drafting.Decimal
