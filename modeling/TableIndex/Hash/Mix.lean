/-!
# Integer hashing

Integer keys are scrambled by a shift and a multiplication, which loses no information; a bucket is
chosen by the low bits of a hash after its high half has been folded in.
-/

namespace TableIndex.Hash

/-- An odd multiplier that spreads low bits over the word. -/
def multiplier : UInt64 := 0x517cc1b727220a95

def ofInt64 (key : Int64) : UInt64 :=
  let k := key.toUInt64
  (k ^^^ (k >>> 16)) * multiplier

/-- A 32-bit key hashes as the same number of 64 bits. -/
def ofInt32 (key : Int32) : UInt64 := ofInt64 key.toInt64

/-- The bucket of a hash; for a table of `2 ^ n` buckets the mask is `2 ^ n - 1`. -/
def bucket (hash : UInt64) (mask : Nat) : Nat := (hash ^^^ (hash >>> 32)).toNat &&& mask

end TableIndex.Hash
