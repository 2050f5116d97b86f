import TableIndex.Slot.Basic

/-!
# Columns

An array of data in one representation, addressed by slot. An empty reference is nothing, an empty
integer is zero.
-/

namespace TableIndex

inductive Column (ρ : Type)
  | references (cells : Array (Option ρ))
  | int32s (cells : Array Int32)
  | int64s (cells : Array Int64)
  deriving Repr

namespace Column

variable {ρ : Type}

def ofCapacity (r : Representation) (capacity : Nat) : Column ρ :=
  match r with
  | .reference => references (Array.replicate capacity none)
  | .int32 => int32s (Array.replicate capacity 0)
  | .int64 => int64s (Array.replicate capacity 0)

def representation : Column ρ → Representation
  | references _ => .reference
  | int32s _ => .int32
  | int64s _ => .int64

def capacity : Column ρ → Nat
  | references cells => cells.size
  | int32s cells => cells.size
  | int64s cells => cells.size

/-- The bytes of one cell; a reference is a text with its length and its capacity. -/
def width : Column ρ → Nat
  | references _ => 24
  | int32s _ => 4
  | int64s _ => 8

/-- Adds empty cells up to `capacity`. -/
def grow (c : Column ρ) (backing : Backing) (capacity : Nat) (grants : Allocator) :
    Except Error (Column ρ) :=
  let granted := grants ⟨backing, capacity, c.width⟩
  match c with
  | references cells => references <$> Slot.extend cells none capacity granted
  | int32s cells => int32s <$> Slot.extend cells 0 capacity granted
  | int64s cells => int64s <$> Slot.extend cells 0 capacity granted

/-- Checks that a datum can be written to the column. -/
def check (c : Column ρ) (part : Part) (d : Datum ρ) : Except Error Unit :=
  if c.representation = d.representation then .ok ()
  else .error (.wrongRepresentation part c.representation d.representation)

/-- Writes a datum and gives the previous one. A datum that the column does not accept is dropped.
-/
def write (c : Column ρ) (l : Link) (d : Datum ρ) : Checked (Option (Datum ρ) × Column ρ) :=
  match c, d with
  | references cells, .reference r => do
      let (old, cells) ← Slot.swap cells l (some r)
      return (old.map .reference, references cells)
  | int32s cells, .int32 n => do
      let (old, cells) ← Slot.swap cells l n
      return (some (.int32 old), int32s cells)
  | int64s cells, .int64 n => do
      let (old, cells) ← Slot.swap cells l n
      return (some (.int64 old), int64s cells)
  | _, _ => .ok (none, c)

def read (c : Column ρ) (l : Link) : Checked (Option (Datum ρ)) :=
  match c with
  | references cells => return (← Slot.fetch cells l).map .reference
  | int32s cells => return some (.int32 (← Slot.fetch cells l))
  | int64s cells => return some (.int64 (← Slot.fetch cells l))

/-- Empties a cell and gives what it held. -/
def take (c : Column ρ) (l : Link) : Checked (Option (Datum ρ) × Column ρ) :=
  match c with
  | references cells => do
      let (old, cells) ← Slot.swap cells l none
      return (old.map .reference, references cells)
  | int32s cells => do
      let (old, cells) ← Slot.swap cells l 0
      return (some (.int32 old), int32s cells)
  | int64s cells => do
      let (old, cells) ← Slot.swap cells l 0
      return (some (.int64 old), int64s cells)

/-- Empties every cell. -/
def clear : Column ρ → Column ρ
  | references cells => references (cells.map fun _ => none)
  | int32s cells => int32s (cells.map fun _ => 0)
  | int64s cells => int64s (cells.map fun _ => 0)

/-- Whether a cell holds a datum. One of another representation is never held, in any cell. -/
def holds [DecidableEq ρ] (c : Column ρ) (l : Link) (d : Datum ρ) : Checked Bool :=
  match c, d with
  | references cells, .reference r => return decide ((← Slot.fetch cells l) = some r)
  | int32s cells, .int32 n => return decide ((← Slot.fetch cells l) = n)
  | int64s cells, .int64 n => return decide ((← Slot.fetch cells l) = n)
  | _, _ => .ok false

end Column
end TableIndex
