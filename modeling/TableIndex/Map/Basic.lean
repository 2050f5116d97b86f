import TableIndex.Map.Chains
import TableIndex.Map.Config
import TableIndex.Map.Entries
import TableIndex.Slot.Recency

/-!
# Maps

A map from keys of one representation to optional values of another: chains of slots by hash,
entries by slot, and on request the recency of each slot. The three have the same capacity.
Integer keys are hashed by scrambling, reference keys by a function given with the map.
-/

namespace TableIndex

structure Map (κ ν : Type) where
  config : Map.Config
  chains : Chains
  entries : Entries κ ν
  recency : Option Recency
  hasher : κ → UInt64

namespace Map

variable {κ ν : Type} [DecidableEq κ]

def ofConfig (config : Map.Config) (hasher : κ → UInt64) : Except Error (Map κ ν) := do
  config.validate
  let capacity := config.initialSlots
  return {
    config
    chains := .ofCapacity capacity config.loadFactor config.maxCapacity
    entries := .ofCapacity config.key config.value capacity
    recency := if config.trackAccess then some (.ofCapacity capacity) else none
    hasher }

def size (m : Map κ ν) : Nat := m.chains.size

def isEmpty (m : Map κ ν) : Bool := m.chains.isEmpty

def capacity (m : Map κ ν) : Nat := m.chains.capacity

def resizes (m : Map κ ν) : Nat := m.chains.resizes

def hashOf (m : Map κ ν) : Datum κ → UInt64
  | .reference r => m.hasher r
  | .int32 n => Hash.ofInt32 n
  | .int64 n => Hash.ofInt64 n

/-- The first of a list of slots that holds a key. -/
def findAmong (m : Map κ ν) (key : Datum κ) : List Slot → Checked Link
  | [] => .ok none
  | s :: rest => do
      if ← m.entries.holdsKey (some s) key then return some s else findAmong m key rest

/-- The slot of a key. A key of another representation has none. -/
def find (m : Map κ ν) (key : Datum κ) : Checked Link := do
  if key.representation ≠ m.entries.keys.representation then return none
  m.findAmong key (← m.chains.chain (m.hashOf key))

/-- Stamps a slot if recency is kept. -/
def touch (m : Map κ ν) (l : Link) : Checked (Map κ ν) := do
  match m.recency with
  | none => return m
  | some recency => return { m with recency := some (← recency.touch l).2 }

/-- Grows the entries, then the recency stamps. -/
def growColumns (m : Map κ ν) (capacity : Nat) (grants : Allocator) : Except Error Unit × Map κ ν :=
  match m.entries.grow capacity grants with
  | (.error e, entries) => (.error e, { m with entries })
  | (.ok (), entries) =>
      match m.recency.mapM fun recency => recency.grow capacity grants with
      | .error e => (.error e, { m with entries })
      | .ok recency => (.ok (), { m with entries, recency })

/-- Grows the columns when the next insert grows the chains and may do so. -/
def makeRoom (m : Map κ ν) (grants : Allocator) : Except Error Unit × Map κ ν :=
  match m.chains.nextCapacity? with
  | none => (.ok (), m)
  | some capacity =>
      if m.config.maxCapacity < capacity then (.ok (), m) else m.growColumns capacity grants

/-- Takes a slot for a new key. -/
def allocate (m : Map κ ν) (hash : UInt64) (grants : Allocator) :
    Checked (Except Error Slot × Map κ ν) := do
  match m.makeRoom grants with
  | (.error e, m) => return (.error e, m)
  | (.ok (), m) =>
      let (slot, chains) ← m.chains.insert hash grants
      return (slot, { m with chains })

/-- Binds a key that is not in the map; with no value given, to the empty value of the column. -/
def insertNew (m : Map κ ν) (key : Datum κ) (value : Option (Datum ν)) (grants : Allocator) :
    Checked (Except Error Unit × Map κ ν) := do
  match ← m.allocate (m.hashOf key) grants with
  | (.error e, m) => return (.error e, m)
  | (.ok s, m) =>
      let entries ← m.entries.writeKey (some s) key
      let entries ← match value with
        | none => pure entries
        | some v => Prod.snd <$> entries.writeValue (some s) v
      return (.ok (), ← { m with entries }.touch (some s))

/-- Binds a key to a value and gives the value it was bound to. -/
def put (m : Map κ ν) (key : Datum κ) (value : Datum ν)
    (grants : Allocator := Allocator.addressable) :
    Checked (Except Error (Option (Datum ν)) × Map κ ν) := do
  match m.entries.admitsValue value, m.entries.admitsKey key with
  | .error e, _ => return (.error e, m)
  | .ok (), .error e => return (.error e, m)
  | .ok (), .ok () =>
      match ← m.find key with
      | some s =>
          let (old, entries) ← m.entries.writeValue (some s) value
          return (.ok old, ← { m with entries }.touch (some s))
      | none =>
          let (result, m) ← m.insertNew key (some value) grants
          return (result.map fun _ => none, m)

/-- Adds a key; false if it was there. Where there are values, a new key has the empty one. -/
def add (m : Map κ ν) (key : Datum κ) (grants : Allocator := Allocator.addressable) :
    Checked (Except Error Bool × Map κ ν) := do
  match m.entries.admitsKey key with
  | .error e => return (.error e, m)
  | .ok () =>
      match ← m.find key with
      | some s => return (.ok false, ← m.touch (some s))
      | none =>
          let (result, m) ← m.insertNew key none grants
          return (result.map fun _ => true, m)

/-- The value of a key. Finding the key is a touch of it. -/
def get (m : Map κ ν) (key : Datum κ) : Checked (Option (Datum ν) × Map κ ν) := do
  match ← m.find key with
  | none => return (none, m)
  | some s =>
      let m ← m.touch (some s)
      return (← m.entries.valueAt (some s), m)

def contains (m : Map κ ν) (key : Datum κ) : Checked Bool := return (← m.find key).isSome

/-- Removes a key and gives its entry. -/
def erase (m : Map κ ν) (key : Datum κ) :
    Checked (Option (Datum κ × Option (Datum ν)) × Map κ ν) := do
  match ← m.find key with
  | none => return (none, m)
  | some s =>
      match ← m.chains.remove (← m.chains.hashAt s) (some s) with
      | (false, _) => return (none, m)
      | (true, chains) =>
          let recency ← m.recency.mapM fun recency => recency.reset (some s)
          let ((stored, value), entries) ← m.entries.takeAt (some s)
          return (stored.map fun k => (k, value), { m with chains, recency, entries })

/-- Removes a key and gives its value. -/
def remove (m : Map κ ν) (key : Datum κ) : Checked (Option (Datum ν) × Map κ ν) := do
  let (entry, m) ← m.erase key
  return (entry.bind Prod.snd, m)

/-- Removes a key; false if it was not there. -/
def discard (m : Map κ ν) (key : Datum κ) : Checked (Bool × Map κ ν) := do
  let (entry, m) ← m.erase key
  return (entry.isSome, m)

/-- Removes every key; the capacity stays, and the clock goes on. -/
def clear (m : Map κ ν) : Map κ ν :=
  { m with chains := m.chains.clear, entries := m.entries.clear,
           recency := m.recency.map Recency.clear }

/-- The key and the value of a slot, if it holds a key. -/
def entryAt (m : Map κ ν) (s : Slot) : Checked (Option (Datum κ × Option (Datum ν))) := do
  match ← m.entries.keyAt (some s) with
  | none => return none
  | some key => return some (key, ← m.entries.valueAt (some s))

/-- The entries in slot order. -/
def toList (m : Map κ ν) : Checked (List (Datum κ × Option (Datum ν))) :=
  return (← m.chains.inUse.mapM m.entryAt).filterMap id

/-- The keys in slot order. -/
def keys (m : Map κ ν) : Checked (List (Datum κ)) :=
  return (← m.chains.inUse.mapM fun s => m.entries.keyAt (some s)).filterMap id

/-- The values in slot order, empty ones left out. -/
def values (m : Map κ ν) : Checked (List (Datum ν)) :=
  return (← m.chains.inUse.mapM fun s => m.entries.valueAt (some s)).filterMap id

/-- The stamp of a key, if recency is kept. -/
def stamp (m : Map κ ν) (key : Datum κ) : Checked (Option Nat) := do
  match m.recency with
  | none => return none
  | some recency =>
      match ← m.find key with
      | none => return none
      | some s => return some (← recency.stamp (some s))

/-- The slot with the least stamp, the first of equals. -/
def oldest (stamped : List (Slot × Nat)) : Link :=
  match stamped with
  | [] => none
  | first :: rest =>
      some (rest.foldl (fun best next => if next.2 < best.2 then next else best) first).1

/-- The key whose last touch is the longest ago, if recency is kept. -/
def leastRecent (m : Map κ ν) : Checked (Option (Datum κ)) := do
  match m.recency with
  | none => return none
  | some recency =>
      let stamped ← m.chains.inUse.mapM fun s => return (s, ← recency.stamp (some s))
      match oldest stamped with
      | none => return none
      | some s => m.entries.keyAt (some s)

/-- Checks that slots hold the keys that their hashes stand for. -/
def verifyKeys (m : Map κ ν) : List Slot → Checked (Except Error Unit)
  | [] => .ok (.ok ())
  | s :: rest => do
      match ← m.entries.keyAt (some s) with
      | none => return .error (.damaged (.missingKey s))
      | some key =>
          if m.hashOf key ≠ (← m.chains.hashAt (some s)) then
            return .error (.damaged (.staleHash s))
          else verifyKeys m rest

/-- Checks the chains and the keys. -/
def verify (m : Map κ ν) : Checked (Except Error Unit) :=
  match m.chains.verify with
  | .error e => .ok (.error e)
  | .ok () => m.verifyKeys m.chains.inUse

end Map
end TableIndex
