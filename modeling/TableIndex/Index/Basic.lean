import TableIndex.Index.Config
import TableIndex.Tree.Update
import TableIndex.Tree.Verify

/-!
# Ordered indexes

A tree of row handles in the order of their keys, equal keys by row and version, so that every row
has one place. A unique index admits a row only if no other row that still counts has its key,
where a key with a null equals no other.
-/

namespace TableIndex

structure Index (ρ : Type) where
  config : Index.Config
  tree : Tree ρ
  deriving Repr

namespace Index

variable {ρ : Type} [Inhabited ρ]

/-- An empty index over rows with the given number of columns, if it is known. -/
def create (config : Index.Config) (columns : Option Nat) : Except Error (Index ρ) := do
  config.validate
  match columns.bind fun n => config.key.find? fun c => decide (n ≤ c.position) with
  | some c => throw (.noSuchColumn config.name c.position)
  | none => return ⟨config, .empty⟩

def key (x : Index ρ) : KeyOrder := x.config.key

def size (x : Index ρ) : Nat := x.tree.size

def isEmpty (x : Index ρ) : Bool := x.tree.isEmpty

def height (x : Index ρ) : Checked Nat := x.tree.height

/-- The order of two rows in the index. -/
def place (x : Index ρ) (src : RowSource ρ) (a b : ρ) : Ordering := x.key.place src a b

/-- Whether a row counts against a writer; without a writer every row does. -/
def counts (src : RowSource ρ) (writer : Option Viewer) (row : ρ) : Bool :=
  writer.all fun v => src.claims v row

/-- Looks for a row that counts among those with the key of `row`, from a link on. -/
def claimedFrom (x : Index ρ) (src : RowSource ρ) (writer : Option Viewer) (row : ρ) :
    Nat → Link → Checked Bool
  | _, none => .ok false
  | 0, some _ => .error .endless
  | fuel + 1, some s => do
      let existing ← x.tree.row (some s)
      if x.key.compare src existing row ≠ .eq then return false
      else if counts src writer existing then return true
      else claimedFrom x src writer row fuel (← x.tree.next (some s))

/-- Some row that counts has the key of `row`. -/
def claimed (x : Index ρ) (src : RowSource ρ) (writer : Option Viewer) (row : ρ) :
    Checked Bool := do
  let start ← x.tree.findFirst fun existing => x.key.compare src existing row != .lt
  x.claimedFrom src writer row x.tree.reach start

/-- The row itself stands just before its gap. -/
def holdsAt (x : Index ρ) (src : RowSource ρ) (gap : Gap) (row : ρ) : Checked Bool :=
  match gap.before with
  | none => .ok false
  | some s => return x.place src (← x.tree.row (some s)) row == .eq

/-- A unique index refuses the row. -/
def refuses (x : Index ρ) (src : RowSource ρ) (writer : Option Viewer) (row : ρ) : Checked Bool :=
  if x.config.isUnique && !x.key.hasNull src row then x.claimed src writer row else .ok false

/-- Adds a row, false if it is there already. With a writer, only rows that count against the writer
keep a unique index from admitting it. -/
def insert (x : Index ρ) (src : RowSource ρ) (writer : Option Viewer) (row : ρ)
    (grants : Allocator := .addressable) : Checked (Except Error Bool × Index ρ) := do
  let gap ← x.tree.gap fun existing => x.place src row existing
  if ← x.holdsAt src gap row then return (.ok false, x)
  else if ← x.refuses src writer row then
    return (.error (.duplicateKey x.config.name (x.key.keyOf src row).render), x)
  else
    let (result, tree) ← x.tree.attach gap row grants
    return (result.map fun _ => true, { x with tree })

/-- Removes a row; false if it was not there. -/
def delete (x : Index ρ) (src : RowSource ρ) (row : ρ) : Checked (Bool × Index ρ) := do
  let (found, tree) ← x.tree.erase fun existing => x.place src existing row
  return (found.any (·.2.isSome), { x with tree })

def contains (x : Index ρ) (src : RowSource ρ) (row : ρ) : Checked Bool :=
  return (← x.tree.find fun existing => x.place src existing row).isSome

/-- Removes every row. -/
def clear (x : Index ρ) : Index ρ := { x with tree := x.tree.clear }

/-- Checks the tree and the order of its rows. -/
def verify (x : Index ρ) (src : RowSource ρ) : Checked (Except Error TreeShape) :=
  x.tree.verify (x.place src)

end Index
end TableIndex
