import TableIndex.Binary.Comparison
import TableIndex.Value.Basic

/-!
# The order of values

Values are ordered by kind (null, truth values, numbers, texts), and those of one kind by what they
are: texts by code point, numbers exactly. An integer is not rounded to a float for this, which
would lose digits; the float is cut to its whole part.
-/

namespace TableIndex.Value

open Binary (binary64)

/-- The kinds in order. Integers and floats are one kind. -/
def rank : Value → Nat
  | null => 0
  | boolean _ => 1
  | integer _ => 2
  | float _ => 2
  | text _ => 3

/-- The order of two floats. The zeros are equal, and NaNs stand at the ends by their signs. -/
def compareFloats (a b : Nat) : Ordering :=
  if binary64.compare? a b == some .eq then .eq else binary64.totalCompare a b

/-- Two to the power of 63, the first float past the integers. -/
def integerBound : Nat := 0x43e0000000000000

/-- The order of an integer and a float. -/
def compareToFloat (n : Int64) (bits : Nat) : Ordering :=
  if binary64.isNaN bits then (if binary64.isNegative bits then .gt else .lt)
  else if (binary64.compare? bits integerBound).any Ordering.isGE then .lt
  else if binary64.compare? bits (binary64.signBit + integerBound) == some .lt then .gt
  else
    let whole := binary64.wholePart bits
    (compare n.toInt (integerOf whole).toInt).then (compareFloats whole bits)

protected def compare : Value → Value → Ordering
  | null, null => .eq
  | integer a, integer b => Ord.compare a.toInt b.toInt
  | float a, float b => compareFloats a.toNat b.toNat
  | integer a, float b => compareToFloat a b.toNat
  | float a, integer b => (compareToFloat b a.toNat).swap
  | text a, text b => Ord.compare a b
  | boolean a, boolean b => Ord.compare a b
  | a, b => Ord.compare a.rank b.rank

instance : Ord Value := ⟨Value.compare⟩

/-- The values in order, equal ones as they stood. -/
def sort (values : List Value) : List Value :=
  values.mergeSort fun a b => (Value.compare a b).isLE

/-- Values are equal when neither precedes the other, whatever their kinds. -/
instance : BEq Value := ⟨fun a b => Value.compare a b == .eq⟩

end TableIndex.Value
