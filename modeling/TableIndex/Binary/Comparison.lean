import TableIndex.Binary.Format

/-!
# Comparing and cutting binary numbers

Numbers are compared by value, where the zeros are equal and a NaN compares with nothing. The total
order puts the patterns themselves in a row: negative NaNs, negative numbers, the negative zero
before the positive one, positive numbers, positive NaNs.
-/

namespace TableIndex.Binary.Format

/-- The order of two numbers, none if one of them is a NaN. -/
def compare? (f : Format) (a b : Nat) : Option Ordering :=
  if f.isNaN a || f.isNaN b then none else some (compare (f.units a) (f.units b))

/-- The place of a pattern in the total order. Below zero, patterns grow away from it. -/
def rankOf (f : Format) (bits : Nat) : Int :=
  if f.isNegative bits then -(f.unsigned bits : Int) - 1 else f.unsigned bits

def totalCompare (f : Format) (a b : Nat) : Ordering := compare (f.rankOf a) (f.rankOf b)

/-- The exponent field of the numbers from 1 up to 2. -/
def bias (f : Format) : Nat := Nat.pow 2 (f.exponentBits - 1) - 1

/-- The pattern of the whole part, toward zero: the digits behind the point become zeros, and the
sign stays. -/
def wholePart (f : Format) (bits : Nat) : Nat :=
  if f.exponentField bits < f.bias then (if f.isNegative bits then f.signBit else 0)
  else bits - bits % Nat.pow 2 (f.bias + f.fractionBits - f.exponentField bits)

end TableIndex.Binary.Format
