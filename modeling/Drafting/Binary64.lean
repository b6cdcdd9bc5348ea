import Drafting.Scalar
import Drafting.Decimal.Plain

namespace Drafting

/-!
# Doubles as exact numbers

A double is read off its 64 bits as `± mantissa · 2 ^ exponent` with natural `mantissa`, so that
its decimal text, and the questions whether it is whole and how large its whole part is, are
settled in exact integer arithmetic.  The file ends with the instance `Scalar Float`.
-/

/-- What the 64 bits of a double stand for. -/
inductive Binary64 where
  | nan
  | infinite (negative : Bool)
  /-- The number `± mantissa · 2 ^ exponent`; zero keeps its sign. -/
  | finite (negative : Bool) (mantissa : Nat) (exponent : Int)
  deriving DecidableEq, Repr

namespace Binary64

/-- Two to the power `n`. -/
def twoPow (n : Nat) : Nat := Nat.pow 2 n

/-- The least exponent of a finite double; all subnormal numbers have it. -/
def minExponent : Int := -1074

/-- Reads sign (1 bit), biased exponent (11 bits) and fraction (52 bits). -/
def ofBits (bits : UInt64) : Binary64 :=
  let n := bits.toNat
  let negative := twoPow 63 ≤ n
  let biased := n / twoPow 52 % twoPow 11
  let fraction := n % twoPow 52
  if biased = twoPow 11 - 1 then
    if fraction = 0 then .infinite negative else .nan
  else if biased = 0 then .finite negative fraction minExponent
  else .finite negative (twoPow 52 + fraction) (minExponent + (biased - 1 : Nat))

/-- The exact reading of a double. -/
def ofFloat (x : Float) : Binary64 := ofBits x.toBits

/-- Finite, and a multiple of one. -/
def isWhole : Binary64 → Bool
  | .finite _ m e => 0 ≤ e || m % twoPow (-e).toNat == 0
  | _ => false

/-- The largest number of 64 bits; a larger whole part is cut down to it. -/
def wholeLimit : Nat := twoPow 64 - 1

/-- The absolute value without its fraction, at most `wholeLimit`. -/
def wholePart : Binary64 → Nat
  | .finite _ m e =>
    Nat.min (if 0 ≤ e then m * twoPow e.toNat else m / twoPow (-e).toNat) wholeLimit
  | .infinite _ => wholeLimit
  | .nan => 0

/-- The reals that round to `m · 2 ^ e` reach half a unit to both sides, but only a quarter
    below a power of two, where the numbers get twice as dense.  Their ends belong to them iff
    the mantissa is even. -/
def rounding (m : Nat) (e : Int) : Decimal.Interval :=
  let narrow := m = twoPow 52 ∧ minExponent < e
  let scale := twoPow (e - 2).toNat
  { low := (if narrow then 4 * m - 1 else 4 * m - 2) * scale
    value := 4 * m * scale
    high := (4 * m + 2) * scale
    unit := twoPow (2 - e).toNat
    closed := m % 2 = 0 }

/-- The fewest decimal digits that read back as `m · 2 ^ e`, nearest to it. -/
def shortest (m : Nat) (e : Int) : Decimal :=
  if m = 0 then ⟨0, 0⟩ else (rounding m e).shortest

/-- The text of a double: the shortest digits, always positional. -/
def text : Binary64 → String
  | .nan => "NaN"
  | .infinite negative => if negative then "-inf" else "inf"
  | .finite negative m e =>
    let digits := (shortest m e).plain
    if negative then "-" ++ digits else digits

end Binary64

instance : Scalar Float where
  ofDecimal m p := Float.ofScientific m true p
  abs := Float.abs
  sqrt := Float.sqrt
  sin := Float.sin
  cos := Float.cos
  tan := Float.tan
  asin := Float.asin
  acos := Float.acos
  atan := Float.atan
  exp := Float.exp
  log := Float.log
  pow := Float.pow
  less x y := x < y
  isZero x := x == 0
  isFinite := Float.isFinite
  isWhole x := (Binary64.ofFloat x).isWhole
  wholePart x := (Binary64.ofFloat x).wholePart
  text x := (Binary64.ofFloat x).text

end Drafting
