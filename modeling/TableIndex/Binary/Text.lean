import TableIndex.Binary.Format
import TableIndex.Decimal.Shortest
import TableIndex.Decimal.Positional

/-!
# Decimal text of binary numbers

A finite number is written with the fewest digits that a reader rounds back to it, positionally at
every size. Zero keeps its sign.
-/

namespace TableIndex.Binary.Format

/-- Decimal places that hold every number of the format and every end of a rounding interval. -/
def decimalPlaces (f : Format) : Nat := f.unitPlaces + 2

/-- The reals that round to a finite positive number: up to half a step away, and below a power of
two, where the steps halve, a quarter. The ends belong to an even significand. -/
def roundingInterval (f : Format) (bits : Nat) : Decimal.Interval :=
  let scale := Nat.pow 5 f.decimalPlaces
  let value := 4 * f.magnitude bits
  let step := f.step bits
  let under := if f.fraction bits = 0 && decide (1 < f.exponentField bits) then step else 2 * step
  { low := (value - under) * scale
    value := value * scale
    high := (value + 2 * step) * scale
    closed := f.fraction bits % 2 == 0 }

/-- The text of a bit pattern. -/
def text (f : Format) (bits : Nat) : String :=
  if f.isNaN bits then "NaN"
  else
    let sign := if f.isNegative bits then "-" else ""
    if f.unsigned bits = f.infinity then sign ++ "inf"
    else if f.unsigned bits = 0 then sign ++ "0"
    else sign ++ Decimal.positional (f.roundingInterval bits).shortest f.decimalPlaces

end TableIndex.Binary.Format
