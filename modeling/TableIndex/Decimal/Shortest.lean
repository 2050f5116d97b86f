/-!
# The shortest decimal in an interval

Among the decimals of an interval around a number, the one with the fewest digits is chosen, of
those the nearest to the number, and of two equally near the larger. All numbers are whole
multiples of one power of ten, fine enough to hold the number itself.
-/

namespace TableIndex.Decimal

/-- A positive number with an interval around it. -/
structure Interval where
  low : Nat
  value : Nat
  high : Nat
  /-- The ends belong to the interval. -/
  closed : Bool

namespace Interval

def contains (i : Interval) (x : Nat) : Bool :=
  if i.closed then decide (i.low ≤ x ∧ x ≤ i.high) else decide (i.low < x ∧ x < i.high)

/-- The multiple of `grid` in the interval that is nearest to the number, if there is one. -/
def nearestOn (i : Interval) (grid : Nat) : Option Nat :=
  let below := i.value / grid * grid
  let above := below + grid
  if i.contains above && (decide (above - i.value ≤ i.value - below) || !i.contains below) then
    some above
  else if i.contains below then some below
  else none

/-- The first grid that meets the interval, from `10 ^ k` down; the finest is the number itself. -/
def shortestFrom (i : Interval) : Nat → Nat
  | 0 => i.value
  | k + 1 => (i.nearestOn (Nat.pow 10 (k + 1))).getD (shortestFrom i k)

/-- The shortest decimal in the interval: grids are tried from that of the leading digit down. -/
def shortest (i : Interval) : Nat :=
  i.shortestFrom ((Nat.toDigits 10 i.value).length - 1)

end Interval
end TableIndex.Decimal
