import TableIndex.Value.Basic

/-!
# Bytes to hash

The byte sequence that stands for a value in a hash. A number contributes the pattern of its
float, an integer the nearest one, and both zeros the positive one, so that equal numbers give
equal bytes.
-/

namespace TableIndex.Value

/-- The bytes of a word, lowest first. -/
def littleEndian (w : UInt64) : List UInt8 :=
  (List.range 8).map fun i => (w >>> UInt64.ofNat (8 * i)).toUInt8

/-- The pattern with the sign of zero dropped. -/
def withoutSignedZero (bits : UInt64) : UInt64 :=
  if Binary.binary64.unsigned bits.toNat = 0 then 0 else bits

def digest : Value → List UInt8
  | null => [0]
  | boolean b => [if b then 1 else 0]
  | integer n => littleEndian (floatOfInt n)
  | float bits => littleEndian (withoutSignedZero bits)
  | text s => s.toUTF8.toList ++ [0xff]

end TableIndex.Value
