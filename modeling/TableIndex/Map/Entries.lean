import TableIndex.Slot.Column

/-!
# Entries

A key column and a value column addressed by the same slots. A set has no value column.
-/

namespace TableIndex

structure Entries (κ ν : Type) where
  keys : Column κ
  values : Option (Column ν)
  deriving Repr

namespace Entries

variable {κ ν : Type}

def ofCapacity (key : Representation) (value : Option Representation) (capacity : Nat) :
    Entries κ ν :=
  ⟨.ofCapacity key capacity, value.map (.ofCapacity · capacity)⟩

def isSet (e : Entries κ ν) : Bool := e.values.isNone

def capacity (e : Entries κ ν) : Nat := e.keys.capacity

/-- Grows the value column, then the key column. -/
def grow (e : Entries κ ν) (capacity : Nat) (grants : Allocator) :
    Except Error Unit × Entries κ ν :=
  match e.values.mapM fun values => values.grow .values capacity grants with
  | .error err => (.error err, e)
  | .ok values =>
      match e.keys.grow .keys capacity grants with
      | .error err => (.error err, { e with values })
      | .ok keys => (.ok (), ⟨keys, values⟩)

def admitsKey (e : Entries κ ν) (key : Datum κ) : Except Error Unit := e.keys.check .key key

def admitsValue (e : Entries κ ν) (value : Datum ν) : Except Error Unit :=
  match e.values with
  | some values => values.check .value value
  | none => .error .noValueColumn

def writeKey (e : Entries κ ν) (l : Link) (key : Datum κ) : Checked (Entries κ ν) := do
  return { e with keys := (← e.keys.write l key).2 }

/-- Writes a value and gives the previous one; a set drops it. -/
def writeValue (e : Entries κ ν) (l : Link) (value : Datum ν) :
    Checked (Option (Datum ν) × Entries κ ν) := do
  match e.values with
  | none => return (none, e)
  | some values =>
      let (old, values) ← values.write l value
      return (old, { e with values := some values })

def keyAt (e : Entries κ ν) (l : Link) : Checked (Option (Datum κ)) := e.keys.read l

def valueAt (e : Entries κ ν) (l : Link) : Checked (Option (Datum ν)) :=
  match e.values with
  | none => .ok none
  | some values => values.read l

def holdsKey [DecidableEq κ] (e : Entries κ ν) (l : Link) (key : Datum κ) : Checked Bool :=
  e.keys.holds l key

/-- Empties a slot and gives its key and its value. -/
def takeAt (e : Entries κ ν) (l : Link) :
    Checked ((Option (Datum κ) × Option (Datum ν)) × Entries κ ν) := do
  let (key, keys) ← e.keys.take l
  match e.values with
  | none => return ((key, none), { e with keys })
  | some values =>
      let (value, values) ← values.take l
      return ((key, value), ⟨keys, some values⟩)

/-- Empties every slot. -/
def clear (e : Entries κ ν) : Entries κ ν := ⟨e.keys.clear, e.values.map Column.clear⟩

end Entries
end TableIndex
