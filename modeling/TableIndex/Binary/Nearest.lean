import TableIndex.Binary.Format

/-!
# Rounding a quotient to a binary format

The nearest representable number, a tie going to the even significand, as a bit pattern. Counted
in units, the representable numbers of one exponent are the multiples of a power of two, and the
pattern of the `n`-th multiple of `2 ^ s` is `s * 2 ^ fractionBits + n`. A significand that rounds
up to the next power of two carries into the exponent field by itself.
-/

namespace TableIndex.Binary

/-- The quotient rounded to the nearest whole number, a tie to the even one. -/
def roundHalfEven (num den : Nat) : Nat :=
  let q := num / den
  let r := num % den
  if 2 * r < den then q
  else if den < 2 * r then q + 1
  else if q % 2 = 0 then q else q + 1

namespace Format

/-- The pattern nearest to `num / den`, for a positive divisor; past the largest number, infinity.
-/
def nearest (f : Format) (num den : Nat) : Nat :=
  let scaled := num * Nat.pow 2 f.unitPlaces
  let shift := (scaled / den).log2 - f.fractionBits
  min (shift * Nat.pow 2 f.fractionBits + roundHalfEven scaled (den * Nat.pow 2 shift)) f.infinity

/-- The pattern nearest to a whole number. -/
def ofInt (f : Format) (n : Int) : Nat :=
  (if n < 0 then f.signBit else 0) + f.nearest n.natAbs 1

end Format
end TableIndex.Binary
