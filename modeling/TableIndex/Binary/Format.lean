/-!
# Binary interchange formats

A bit pattern of a binary format is read as a sign and a whole number of the format's least positive
number, so that comparing and rounding need no fractions. The patterns above every finite number
(infinity, then the NaNs) continue the same scale: the reading is monotone in the pattern and
distinguishes any two patterns other than the zeros.
-/

namespace TableIndex.Binary

/-- Field widths of a binary interchange format: sign, exponent, fraction from the top. -/
structure Format where
  fractionBits : Nat
  exponentBits : Nat
  deriving DecidableEq, Repr

/-- The 64-bit format. -/
def binary64 : Format := ⟨52, 11⟩

/-- The 32-bit format. -/
def binary32 : Format := ⟨23, 8⟩

namespace Format

/-- The least positive number of the format is two to the power of minus this. -/
def unitPlaces (f : Format) : Nat := Nat.pow 2 (f.exponentBits - 1) - 2 + f.fractionBits

/-- The pattern of positive infinity. -/
def infinity (f : Format) : Nat := (Nat.pow 2 f.exponentBits - 1) * Nat.pow 2 f.fractionBits

def signBit (f : Format) : Nat := Nat.pow 2 (f.exponentBits + f.fractionBits)

def isNegative (f : Format) (bits : Nat) : Bool := decide (f.signBit ≤ bits)

/-- The pattern without its sign. -/
def unsigned (f : Format) (bits : Nat) : Nat := bits % f.signBit

def isNaN (f : Format) (bits : Nat) : Bool := decide (f.infinity < f.unsigned bits)

def exponentField (f : Format) (bits : Nat) : Nat := f.unsigned bits / Nat.pow 2 f.fractionBits

def fraction (f : Format) (bits : Nat) : Nat := bits % Nat.pow 2 f.fractionBits

/-- The distance to the next pattern away from zero, in units. -/
def step (f : Format) (bits : Nat) : Nat := Nat.pow 2 (f.exponentField bits - 1)

/-- The distance from zero, in units: the leading bit is implicit unless the exponent field is 0. -/
def magnitude (f : Format) (bits : Nat) : Nat :=
  if f.exponentField bits = 0 then f.fraction bits
  else (Nat.pow 2 f.fractionBits + f.fraction bits) * f.step bits

/-- The signed number of units. Both zeros are 0. -/
def units (f : Format) (bits : Nat) : Int :=
  if f.isNegative bits then -(f.magnitude bits : Int) else f.magnitude bits

/-- The whole part of the number, toward zero. -/
def truncate (f : Format) (bits : Nat) : Int := (f.units bits).tdiv (Nat.pow 2 f.unitPlaces : Nat)

end Format
end TableIndex.Binary
