import TableIndex.RowSource

/-!
# Key order

Rows compare on the first key column in which they differ. Nulls stand at the start or at the end
of a column, whichever way the column is sorted.
-/

namespace TableIndex

inductive SortOrder
  | ascending
  | descending
  deriving DecidableEq, Repr

inductive NullPlacement
  | first
  | last
  deriving DecidableEq, Repr

/-- One key column of an index. -/
structure KeyColumn where
  position : Nat
  sort : SortOrder := .ascending
  nulls : NullPlacement := .first
  deriving DecidableEq, Repr

namespace KeyColumn

def isDescending (c : KeyColumn) : Bool := c.sort == .descending

def isNullsLast (c : KeyColumn) : Bool := c.nulls == .last

/-- The order of a null to any other value. -/
def nullOrder (c : KeyColumn) : Ordering :=
  match c.nulls with
  | .first => .lt
  | .last => .gt

/-- The order of two values in the column. -/
def compare (c : KeyColumn) (a b : Value) : Ordering :=
  match a.isNull, b.isNull with
  | true, true => .eq
  | true, false => c.nullOrder
  | false, true => c.nullOrder.swap
  | false, false => if c.isDescending then (a.compare b).swap else a.compare b

end KeyColumn

/-- The key columns of an index in significance order. -/
abbrev KeyOrder := List KeyColumn

namespace KeyOrder

variable {ρ : Type}

/-- The order of two rows by their key columns. -/
def compare (key : KeyOrder) (src : RowSource ρ) (a b : ρ) : Ordering :=
  match key with
  | [] => .eq
  | c :: rest =>
      (c.compare (src.project a c.position) (src.project b c.position)).then
        (compare rest src a b)

/-- The order of a row to a list of wanted values, column by column. -/
def comparePrefix (src : RowSource ρ) (a : ρ) : List (KeyColumn × Value) → Ordering
  | [] => .eq
  | (c, wanted) :: rest =>
      (c.compare (src.project a c.position) wanted).then (comparePrefix src a rest)

/-- The order of a row to the first `count` values of a search key. -/
def compareTo (key : KeyOrder) (src : RowSource ρ) (a : ρ) (wanted : List Value) (count : Nat) :
    Ordering :=
  comparePrefix src a ((key.zip wanted).take count)

/-- The values of a row in the key columns. -/
def keyOf (key : KeyOrder) (src : RowSource ρ) (a : ρ) : Row :=
  ⟨key.map fun c => src.project a c.position⟩

/-- Some key column of the row is null. -/
def hasNull (key : KeyOrder) (src : RowSource ρ) (a : ρ) : Bool :=
  key.any fun c => (src.project a c.position).isNull

/-- The order of rows in an index: by key, then by row, then by version. -/
def place (key : KeyOrder) (src : RowSource ρ) (a b : ρ) : Ordering :=
  (key.compare src a b).then
    ((Ord.compare (src.rowId a) (src.rowId b)).then
      (Ord.compare (src.versionId a) (src.versionId b)))

end KeyOrder
end TableIndex
