import TableIndex.Slot.Basic

/-!
# Map configurations

What a map holds and how it grows. A configuration without a value representation describes a set.
-/

namespace TableIndex

structure Map.Config where
  key : Representation := .reference
  value : Option Representation := some .reference
  initialCapacity : Nat := 16
  /-- The power of two that it is rounded up to can be counted. -/
  initialCapacity_le : initialCapacity ≤ Nat.pow 2 63 := by decide
  /-- A 32-bit pattern; three quarters unless set. -/
  loadFactor : UInt32 := 0x3f400000
  trackAccess : Bool := false
  maxCapacity : Nat := maxSlots
  deriving DecidableEq, Repr

namespace Map.Config

def isSet (c : Map.Config) : Bool := c.value.isNone

/-- The least power of two that is no less than `n`. -/
def ceilPowerOfTwo (n : Nat) : Nat := if n ≤ 1 then 1 else Nat.pow 2 ((n - 1).log2 + 1)

/-- The number of slots of a new map. -/
def initialSlots (c : Map.Config) : Nat := ceilPowerOfTwo c.initialCapacity

/-- The load factor lies in `(0, 1]`; a NaN is beyond every number on its side. -/
def loadFactorInRange (c : Map.Config) : Bool :=
  let units := Binary.binary32.units c.loadFactor.toNat
  decide (0 < units ∧ units ≤ (Nat.pow 2 Binary.binary32.unitPlaces : Nat))

def validate (c : Map.Config) : Except Error Unit :=
  if !c.loadFactorInRange then .error (.badConfig (.loadFactor c.loadFactor))
  else if c.maxCapacity = 0 ∨ maxSlots < c.maxCapacity then
    .error (.badConfig (.maxCapacity maxSlots c.maxCapacity))
  else if c.maxCapacity < c.initialSlots then
    .error (.badConfig (.initialCapacity c.initialSlots c.maxCapacity))
  else .ok ()

end Map.Config
end TableIndex
