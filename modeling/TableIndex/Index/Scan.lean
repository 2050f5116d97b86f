import TableIndex.Index.Basic
import TableIndex.Index.Comparison

/-!
# Scans

A walk reads the rows of an index one by one from some place on; a scan is a walk that passes over
the rows its viewer does not see. A cursor keeps the last row of a scan, not its node, so a scan
can be resumed after the index has changed.
-/

namespace TableIndex

/-- Which rows a scan is for: all, or those that compare with a key in some way. -/
structure Bound where
  key : List Value
  count : Nat
  comparison : Option Comparison
  direction : Direction
  deriving DecidableEq, Repr

namespace Bound

def full (direction : Direction) : Bound := ⟨[], 0, none, direction⟩

/-- A bound by the first `count` values of a key. -/
def keyed (key : List Value) (count : Nat) (c : Comparison) : Bound :=
  ⟨key.take count, min count key.length, some c, c.direction⟩

/-- The scan stops after the rows equal to its key. -/
def isEquality (b : Bound) : Bool := b.comparison == some .eq

end Bound

/-- The position of a scan: its last row, and its bound. -/
structure Cursor (ρ : Type) where
  last : Option ρ
  bound : Bound
  deriving Repr

structure Walk (ρ : Type) where
  index : Index ρ
  current : Link
  bound : Bound
  deriving Repr

structure Scan (ρ : Type) where
  walk : Walk ρ
  viewer : Viewer
  last : Option ρ
  /-- The invisible rows passed so far. -/
  skipped : Nat
  deriving Repr

variable {ρ : Type} [Inhabited ρ]

namespace Walk

def side : Direction → Side
  | .forward => .right
  | .backward => .left

/-- The next row, or none at the end and, for an equality, past the rows equal to the key. -/
def next (w : Walk ρ) (src : RowSource ρ) : Checked (Option ρ × Walk ρ) := do
  match w.current with
  | none => return (none, w)
  | some s =>
      let row ← w.index.tree.row (some s)
      if w.bound.isEquality &&
          w.index.key.compareTo src row w.bound.key w.bound.count != .eq then
        return (none, { w with current := none })
      else
        let current ← w.index.tree.neighbor (side w.bound.direction) (some s)
        return (some row, { w with current })

/-- Up to `count` rows. -/
def pull (src : RowSource ρ) : Nat → Walk ρ → Checked (List ρ × Walk ρ)
  | 0, w => .ok ([], w)
  | count + 1, w => do
      match ← w.next src with
      | (none, w) => return ([], w)
      | (some row, w) =>
          let (rows, w) ← pull src count w
          return (row :: rows, w)

/-- More rows than a walk can have. -/
def reach (w : Walk ρ) : Nat := w.index.tree.reach + 1

end Walk

namespace Scan

/-- The next visible row within `fuel` steps. -/
def nextWithin (src : RowSource ρ) : Nat → Scan ρ → Checked (Option ρ × Scan ρ)
  | 0, _ => .error .endless
  | fuel + 1, s => do
      match ← s.walk.next src with
      | (none, walk) => return (none, { s with walk })
      | (some row, walk) =>
          if src.visible s.viewer row then return (some row, { s with walk, last := some row })
          else nextWithin src fuel { s with walk, skipped := s.skipped + 1 }

/-- The next visible row. -/
def next (s : Scan ρ) (src : RowSource ρ) : Checked (Option ρ × Scan ρ) :=
  nextWithin src s.walk.reach s

/-- Up to `count` visible rows. -/
def pull (src : RowSource ρ) : Nat → Scan ρ → Checked (List ρ × Scan ρ)
  | 0, s => .ok ([], s)
  | count + 1, s => do
      match ← s.next src with
      | (none, s) => return ([], s)
      | (some row, s) =>
          let (rows, s) ← pull src count s
          return (row :: rows, s)

/-- The visible rows that are left. -/
def drain (s : Scan ρ) (src : RowSource ρ) : Checked (List ρ × Scan ρ) := pull src s.walk.reach s

/-- The position after the last row. -/
def cursor (s : Scan ρ) : Cursor ρ := ⟨s.last, s.walk.bound⟩

end Scan

namespace Index

/-- The first node of a full scan. -/
def origin (x : Index ρ) : Direction → Checked Link
  | .forward => x.tree.first
  | .backward => x.tree.last

/-- The first node of a search: the nearest one to the bound, on the side of the admitted rows. An
equality starts at the first row that is not below its key. -/
def start (x : Index ρ) (src : RowSource ρ) (b : Bound) (c : Comparison) : Checked Link :=
  let order := fun row => x.key.compareTo src row b.key b.count
  match c with
  | .eq => x.tree.findFirst fun row => Comparison.ge.accepts (order row)
  | .ge | .gt => x.tree.findFirst fun row => c.accepts (order row)
  | .le | .lt => x.tree.findLast fun row => c.accepts (order row)

/-- All rows in a direction, visible or not. -/
def walk (x : Index ρ) (direction : Direction) : Checked (Walk ρ) :=
  return ⟨x, ← x.origin direction, .full direction⟩

/-- All rows in a direction. -/
def scan (x : Index ρ) (viewer : Viewer) (direction : Direction) : Checked (Scan ρ) :=
  return ⟨← x.walk direction, viewer, none, 0⟩

/-- The rows that compare with the first `count` values of a key, from the bound on. -/
def search (x : Index ρ) (src : RowSource ρ) (viewer : Viewer) (key : List Value) (count : Nat)
    (c : Comparison) : Checked (Scan ρ) := do
  let bound := Bound.keyed key count c
  return ⟨⟨x, ← x.start src bound c, bound⟩, viewer, none, 0⟩

/-- The first node past a row in a direction. -/
def after (x : Index ρ) (src : RowSource ρ) (row : ρ) : Direction → Checked Link
  | .forward => x.tree.findFirst fun r => x.place src r row == .gt
  | .backward => x.tree.findLast fun r => x.place src r row == .lt

/-- Continues a scan after its last row; a scan that had none starts anew. -/
def resume (x : Index ρ) (src : RowSource ρ) (viewer : Viewer) (c : Cursor ρ) : Checked (Scan ρ) :=
  match c.last, c.bound.comparison with
  | some last, _ =>
      return ⟨⟨x, ← x.after src last c.bound.direction, c.bound⟩, viewer, none, 0⟩
  | none, some comparison => x.search src viewer c.bound.key c.bound.count comparison
  | none, none => x.scan viewer c.bound.direction

/-- The first row of a search. -/
def lookup (x : Index ρ) (src : RowSource ρ) (viewer : Viewer) (key : List Value) (count : Nat)
    (c : Comparison) : Checked (Option ρ) :=
  return (← (← x.search src viewer key count c).next src).1

/-- The first visible row in a direction. -/
def endRow (x : Index ρ) (src : RowSource ρ) (viewer : Viewer) (direction : Direction) :
    Checked (Option ρ) :=
  return (← (← x.scan viewer direction).next src).1

end Index
end TableIndex
