namespace Drafting

/-!
# Shortest decimals

`Decimal.Interval.shortest` finds the decimal with the fewest digits inside an interval around a
positive rational value.  On each decimal grid only the two grid points next to the value matter:
if any point of the grid lies in the interval, one of these two does.  The grids are tried from
coarse to fine; of two points inside, the nearer wins, and of two equally near ones the larger.
-/

/-- The decimal number `digits · 10 ^ exponent`. -/
structure Decimal where
  digits : Nat
  exponent : Int
  deriving DecidableEq, Repr

namespace Decimal

/-- A positive rational `value / unit` between `low / unit` and `high / unit`; the two ends belong
    to the interval iff it is `closed`. -/
structure Interval where
  low : Nat
  value : Nat
  high : Nat
  unit : Nat
  closed : Bool
  deriving DecidableEq, Repr

/-- Ten to the power `n`. -/
def tenPow (n : Nat) : Nat := Nat.pow 10 n

/-- How many decimal digits `n` has. -/
def digitCount (n : Nat) : Nat := (Nat.toDigits 10 n).length

namespace Interval

variable (r : Interval)

/-- Is `n / unit` in the interval? -/
def contains (n : Nat) : Bool :=
  if r.closed then r.low ≤ n && n ≤ r.high else r.low < n && n < r.high

/-- The same interval with all its numbers multiplied by `s`. -/
def scale (s : Nat) : Interval :=
  { r with low := r.low * s, value := r.value * s, high := r.high * s }

/-- The least exponent whose power of ten exceeds the value. -/
def magnitude : Int :=
  if r.unit ≤ r.value then digitCount (r.value / r.unit)
  else 1 - (digitCount ((r.unit - 1) / r.value) : Int)

/-- The multiple of `10 ^ k` in the interval that is nearest to the value, if there is one; the
    answer is the factor of `10 ^ k`. -/
def gridPoint? (k : Int) : Option Nat :=
  let s := r.scale (tenPow (-k).toNat)
  let step := r.unit * tenPow k.toNat
  let below := s.value / step
  match s.contains (below * step), s.contains ((below + 1) * step) with
  | true, false => some below
  | false, true => some (below + 1)
  | true, true => some (if 2 * s.value < (2 * below + 1) * step then below else below + 1)
  | false, false => none

/-- The first grid point found from the grid `10 ^ k` on, over at most `fuel` grids. -/
def search : (fuel : Nat) → (k : Int) → Option Decimal
  | 0, _ => none
  | fuel + 1, k =>
    match r.gridPoint? k with
    | some n => some ⟨n, k⟩
    | none => search fuel (k - 1)

/-- The fewest digits that stay in the interval.  Seventeen digits always suffice for a double,
    so eighteen grids are tried; an interval too narrow for that gets its eighteen digits cut
    off. -/
def shortest : Decimal :=
  let k := r.magnitude
  (r.search 18 k).getD
    ⟨r.value * tenPow (17 - k).toNat / (r.unit * tenPow (k - 17).toNat), k - 17⟩

end Interval
end Decimal

end Drafting
