import TableIndex.Slot.Basic

/-!
# Arenas

An array of records with a free list. The slot released last is handed out first, and a slot that
was never used only when the free list is empty. Records do not move, and growth adds free slots
at the end.
-/

namespace TableIndex

structure Cell (α : Type) where
  record : α
  live : Bool
  deriving Repr

structure Arena (α : Type) where
  cells : Array (Cell α)
  /-- Released slots, the last one first. -/
  freed : List Slot
  /-- Slots below this have been handed out at least once. -/
  frontier : Nat
  /-- The number of live slots. -/
  size : Nat
  /-- In a guarded arena, addressing a free slot is a fault. -/
  guarded : Bool
  deriving Repr

namespace Arena

variable {α : Type} [Inhabited α]

def ofCapacity (capacity : Nat) (guarded : Bool := false) : Arena α :=
  { cells := Array.replicate capacity ⟨default, false⟩, freed := [], frontier := 0, size := 0,
    guarded }

def capacity (a : Arena α) : Nat := a.cells.size

def isEmpty (a : Arena α) : Bool := a.size == 0

/-- A slot is free without growing. -/
def hasFree (a : Arena α) : Bool := !a.freed.isEmpty || decide (a.frontier < a.capacity)

/-- The record of a live slot. -/
def get? (a : Arena α) (l : Link) : Option α :=
  match l.bind (a.cells[·]?) with
  | some ⟨record, true⟩ => some record
  | _ => none

def contains (a : Arena α) (l : Link) : Bool := (a.get? l).isSome

/-- Puts a record into a free slot, if there is one. -/
def allocate (a : Arena α) (record : α) : Option Slot × Arena α :=
  match a.freed with
  | s :: rest =>
      (some s, { a with cells := a.cells.setIfInBounds s ⟨record, true⟩, freed := rest,
                        size := a.size + 1 })
  | [] =>
      if a.frontier < a.capacity then
        (some a.frontier, { a with cells := a.cells.setIfInBounds a.frontier ⟨record, true⟩,
                                    frontier := a.frontier + 1, size := a.size + 1 })
      else (none, a)

/-- Frees a live slot and gives its record; any other link changes nothing. -/
def release (a : Arena α) (l : Link) : Option α × Arena α :=
  match l, a.get? l with
  | some s, some record =>
      (some record, { a with cells := a.cells.setIfInBounds s ⟨default, false⟩,
                             freed := s :: a.freed, size := a.size - 1 })
  | _, _ => (none, a)

/-- The record of a slot in range. -/
def fetch (a : Arena α) (l : Link) : Checked α := do
  let cell ← Slot.fetch a.cells l
  if a.guarded && !cell.live then .error (.free (l.getD 0)) else .ok cell.record

/-- Changes the record of a slot in range. -/
def update (a : Arena α) (l : Link) (f : α → α) : Checked (Arena α) := do
  let cell ← Slot.fetch a.cells l
  if a.guarded && !cell.live then .error (.free (l.getD 0))
  else
    let changed := { cell with record := f cell.record }
    .ok { a with cells := a.cells.setIfInBounds (l.getD 0) changed }

/-- Replaces the record of a live slot. -/
def set? (a : Arena α) (l : Link) (record : α) : Option (Arena α) :=
  match l, a.get? l with
  | some s, some _ => some { a with cells := a.cells.setIfInBounds s ⟨record, true⟩ }
  | _, _ => none

/-- Adds free slots up to `capacity`, for records of `width` bytes. -/
def grow (a : Arena α) (width capacity : Nat) (grants : Allocator) : Except Error (Arena α) := do
  let granted := grants ⟨.records, capacity, width⟩ && grants ⟨.marks, capacity, 1⟩
  return { a with cells := ← Slot.extend a.cells ⟨default, false⟩ capacity granted }

/-- Frees every slot; the capacity stays. -/
def clear (a : Arena α) : Arena α :=
  { a with cells := a.cells.mapIdx fun s cell => if s < a.frontier then ⟨default, false⟩ else cell
           freed := [], frontier := 0, size := 0 }

/-- The live slots in increasing order. -/
def inUse (a : Arena α) : List Slot :=
  (List.range a.frontier).filter fun s => a.contains (some s)

end Arena
end TableIndex
