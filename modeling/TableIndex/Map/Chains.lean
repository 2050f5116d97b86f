import TableIndex.Binary.Nearest
import TableIndex.Hash.Mix
import TableIndex.Slot.Arena

/-!
# Chained hash tables

An array of bucket heads and an arena of links. Every live slot keeps the hash of its key and
stands in the chain of that hash's bucket, so that neither a search nor a resize looks at keys.
The table doubles before an insert that would exceed the load limit.
-/

namespace TableIndex

structure ChainCell where
  next : Link
  hash : UInt64
  deriving DecidableEq, Repr

instance : Inhabited ChainCell := ⟨⟨none, 0⟩⟩

structure Chains where
  /-- The first slot of each chain; their number is a power of two. -/
  buckets : Array Link
  links : Arena ChainCell
  loadFactor : UInt32
  /-- The largest live count allowed at the current capacity. -/
  limit : Nat
  maxCapacity : Nat
  resizes : Nat
  deriving Repr

namespace Chains

/-- The whole part of `capacity` times the load factor, at least 1 and at most `capacity`. A load
factor that is negative or no number counts as zero. -/
def limitFor (capacity : Nat) (loadFactor : UInt32) : Nat :=
  let bits := loadFactor.toNat
  if Binary.binary32.isNaN bits then 1
  else
    max 1 (min capacity
      (capacity * (Binary.binary32.units bits).toNat / Nat.pow 2 Binary.binary32.unitPlaces))

def ofCapacity (capacity : Nat) (loadFactor : UInt32) (maxCapacity : Nat) : Chains :=
  { buckets := Array.replicate capacity none
    links := .ofCapacity capacity
    loadFactor
    limit := limitFor capacity loadFactor
    maxCapacity
    resizes := 0 }

def capacity (c : Chains) : Nat := c.buckets.size

def size (c : Chains) : Nat := c.links.size

def isEmpty (c : Chains) : Bool := c.links.isEmpty

/-- Live count divided by capacity, as a 32-bit pattern. -/
def load (c : Chains) : UInt32 := UInt32.ofNat (Binary.binary32.nearest c.size c.capacity)

def mask (c : Chains) : Nat := c.capacity - 1

/-- The first slot of the chain that a hash falls into. -/
def head (c : Chains) (hash : UInt64) : Link := c.buckets.getD (Hash.bucket hash c.mask) none

def next (c : Chains) (l : Link) : Checked Link := return (← c.links.fetch l).next

def hashAt (c : Chains) (l : Link) : Checked UInt64 := return (← c.links.fetch l).hash

def contains (c : Chains) (l : Link) : Bool := c.links.contains l

/-- The slots from a link to the end of its chain, if they are no more than `fuel`. -/
def walk (c : Chains) : Nat → Link → Checked (List Slot)
  | _, none => .ok []
  | 0, some _ => .error .endless
  | fuel + 1, some s => return s :: (← walk c fuel (← c.next s))

/-- The slots of a chain. A chain holds no slot twice, so it is no longer than the arena. -/
def chainFrom (c : Chains) (head : Link) : Checked (List Slot) := c.walk c.links.capacity head

/-- The slots whose hash is `hash`, in chain order. -/
def chain (c : Chains) (hash : UInt64) : Checked (List Slot) := do
  (← c.chainFrom (c.head hash)).filterM fun s => return (← c.hashAt s) == hash

/-- The capacity that the next insert grows to, if it grows. -/
def nextCapacity? (c : Chains) : Option Nat :=
  if c.limit < c.size + 1 || !c.links.hasFree then some (min (2 * c.capacity) (UInt64.size - 1))
  else none

/-- Puts a slot in front of the chain of its hash. -/
def push (c : Chains) (s : Slot) : Checked Chains := do
  let bucket := Hash.bucket (← c.hashAt s) c.mask
  let links ← c.links.update s fun link => { link with next := c.buckets.getD bucket none }
  return { c with buckets := c.buckets.setIfInBounds bucket (some s), links }

/-- Moves the slots from a link to the end of its chain to the chains of their hashes, if they are
no more than `fuel`. A move overwrites the link to the next slot, so this is read before. -/
def moveChain : Nat → Chains → Link → Checked Chains
  | _, c, none => .ok c
  | 0, _, some _ => .error .endless
  | fuel + 1, c, some s => do
      let next ← c.next s
      moveChain fuel (← c.push s) next

/-- Distributes the slots of all chains, in bucket order, over new buckets. -/
def resize (c : Chains) (capacity : Nat) (grants : Allocator) : Checked (Except Error Chains) := do
  if c.maxCapacity < capacity then return .error (.full capacity c.maxCapacity)
  if !grants ⟨.buckets, capacity, 4⟩ then return .error (.full capacity c.capacity)
  match c.links.grow 16 capacity grants with
  | .error e => return .error e
  | .ok links =>
      let emptied := { c with buckets := Array.replicate capacity none, links }
      let filled ← c.buckets.toList.foldlM (moveChain capacity) emptied
      return .ok { filled with
        limit := limitFor capacity c.loadFactor
        resizes := c.resizes + 1 }

/-- Takes a free slot for a hash and puts it in front of its chain. -/
def link (c : Chains) (hash : UInt64) : Except Error Slot × Chains :=
  match c.links.allocate ⟨c.head hash, hash⟩ with
  | (some s, links) =>
      let bucket := Hash.bucket hash c.mask
      (.ok s, { c with buckets := c.buckets.setIfInBounds bucket (some s), links })
  | (none, _) => (.error (.damaged .noFreeSlot), c)

/-- Adds a slot for a new key, growing first when the limit demands it. -/
def insert (c : Chains) (hash : UInt64) (grants : Allocator) :
    Checked (Except Error Slot × Chains) := do
  match c.nextCapacity? with
  | none => return c.link hash
  | some capacity =>
      match ← c.resize capacity grants with
      | .error e => return (.error e, c)
      | .ok grown => return grown.link hash

/-- Points the link before a slot, or the bucket of a chain's first slot, to `next`. -/
def bypass (c : Chains) (bucket : Nat) (before : Link) (next : Link) : Checked Chains :=
  match before with
  | none => .ok { c with buckets := c.buckets.setIfInBounds bucket next }
  | some _ => return { c with links := ← c.links.update before fun link => { link with next } }

/-- The slot before `s` in a chain given by its slots, if `s` is in it. -/
def before? (s : Link) : Link → List Slot → Option Link
  | _, [] => none
  | before, t :: rest => if s = some t then some before else before? s (some t) rest

/-- Takes a slot out of the chain of a hash and frees it; false, and no change, if it is not
there. -/
def remove (c : Chains) (hash : UInt64) (l : Link) : Checked (Bool × Chains) := do
  match before? l none (← c.chainFrom (c.head hash)) with
  | none => return (false, c)
  | some before =>
      let c ← c.bypass (Hash.bucket hash c.mask) before (← c.next l)
      return (true, { c with links := (c.links.release l).2 })

/-- Empties every chain; the capacity stays. -/
def clear (c : Chains) : Chains :=
  { c with buckets := c.buckets.map fun _ => none, links := c.links.clear }

def inUse (c : Chains) : List Slot := c.links.inUse

/-- Checks a chain that may hold `budget` slots, and gives what is left of the budget. -/
def verifyChain (c : Chains) (bucket : Nat) : Nat → Link → Except Damage Nat
  | budget, none => .ok budget
  | budget, some s =>
      match c.links.get? (some s) with
      | none => .error (.bucketToFreeSlot bucket s)
      | some link =>
          if Hash.bucket link.hash c.mask ≠ bucket then .error (.wrongBucket s bucket)
          else match budget with
            | 0 => .error .chainCycle
            | budget + 1 => verifyChain c bucket budget link.next

/-- Checks the chains of a list of buckets. -/
def verifyBuckets (c : Chains) : Nat → Nat → List Link → Except Damage Nat
  | _, budget, [] => .ok budget
  | bucket, budget, head :: rest => do
      verifyBuckets c (bucket + 1) (← c.verifyChain bucket budget head) rest

/-- Checks that the chains hold every live slot once, each in the bucket of its hash. -/
def verify (c : Chains) : Except Error Unit :=
  match c.verifyBuckets 0 c.size c.buckets.toList with
  | .error damage => .error (.damaged damage)
  | .ok 0 => .ok ()
  | .ok left => .error (.damaged (.unreachableSlots c.size (c.size - left)))

end Chains
end TableIndex
