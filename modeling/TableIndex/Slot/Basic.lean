import TableIndex.Error

/-!
# Slots

Records live in arrays and refer to each other by slot, a position in the array; a link is a slot or
nothing. Arrays grow only when the space is granted.
-/

namespace TableIndex

abbrev Slot := Nat

abbrev Link := Option Slot

/-- The largest number of slots of a table or a tree. -/
def maxSlots : Nat := Nat.pow 2 31

/-- What the space of a growing array is for. -/
inductive Backing
  | records
  | marks
  | keys
  | values
  | counters
  | buckets
  deriving DecidableEq, Repr

/-- A request for the space of `slots` cells of `width` bytes. -/
structure Reservation where
  backing : Backing
  slots : Nat
  width : Nat
  deriving DecidableEq, Repr

/-- Which requests for space are granted. -/
abbrev Allocator := Reservation → Bool

/-- Grants every request whose bytes can be addressed. -/
def Allocator.addressable : Allocator := fun r => decide (r.slots * r.width < Nat.pow 2 63)

namespace Slot

variable {α : Type}

/-- The cell that a link names. -/
def fetch (cells : Array α) : Link → Checked α
  | none => .error .missing
  | some s => (cells[s]?).elim (.error (.outOfRange s cells.size)) .ok

/-- Replaces the cell that a link names, and gives its old content. -/
def swap (cells : Array α) (l : Link) (a : α) : Checked (α × Array α) :=
  match l with
  | none => .error .missing
  | some s => match cells[s]? with
    | none => .error (.outOfRange s cells.size)
    | some old => .ok (old, cells.setIfInBounds s a)

/-- The cells and empty ones behind them, in one block that is taken at once. -/
def widen (cells : Array α) (empty : α) (capacity : Nat) : Array α :=
  cells.size.fold (fun s _ block => block.setIfInBounds s (cells[s]?.getD empty))
    (Array.replicate capacity empty)

/-- Fills up to `capacity` cells if the space is granted; a smaller capacity changes nothing. -/
def extend (cells : Array α) (empty : α) (capacity : Nat) (granted : Bool) :
    Except Error (Array α) :=
  if capacity ≤ cells.size then .ok cells
  else if granted then .ok (widen cells empty capacity)
  else .error (.full capacity cells.size)

end Slot
end TableIndex
