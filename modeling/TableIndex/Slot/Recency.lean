import TableIndex.Slot.Basic

/-!
# Recency

A clock and one stamp per slot. Every touch advances the clock and stamps the slot with it; an
untouched slot has stamp zero.
-/

namespace TableIndex

structure Recency where
  stamps : Array Nat
  clock : Nat
  deriving Repr

namespace Recency

def ofCapacity (capacity : Nat) : Recency := ⟨Array.replicate capacity 0, 0⟩

def capacity (r : Recency) : Nat := r.stamps.size

/-- Stamps a slot with the advanced clock. -/
def touch (r : Recency) (l : Link) : Checked (Nat × Recency) := do
  let (_, stamps) ← Slot.swap r.stamps l (r.clock + 1)
  return (r.clock + 1, ⟨stamps, r.clock + 1⟩)

def stamp (r : Recency) (l : Link) : Checked Nat := Slot.fetch r.stamps l

/-- Forgets the touches of a slot. -/
def reset (r : Recency) (l : Link) : Checked Recency := do
  let (_, stamps) ← Slot.swap r.stamps l 0
  return { r with stamps }

def grow (r : Recency) (capacity : Nat) (grants : Allocator) : Except Error Recency := do
  return { r with stamps := ← Slot.extend r.stamps 0 capacity (grants ⟨.counters, capacity, 8⟩) }

/-- Forgets every touch; the clock goes on. -/
def clear (r : Recency) : Recency := { r with stamps := r.stamps.map fun _ => 0 }

end Recency
end TableIndex
