import TableIndex.Row
import TableIndex.Txn.Viewer

/-!
# Row sources

An index holds handles of rows and asks a source for what the rows contain and who may see them. A
source answers the same for a handle as long as an index holds it.
-/

namespace TableIndex

structure RowSource (ρ : Type) where
  /-- The value of a column; null past the last one. -/
  project : ρ → Nat → Value
  /-- The identity of the row, which its versions may share. -/
  rowId : ρ → Int
  /-- The identity of the version among those of one row. -/
  versionId : ρ → Nat
  visible : Viewer → ρ → Bool
  /-- Whether the row still claims its key against a writer. -/
  claims : Viewer → ρ → Bool
  /-- The number of columns, if it is known. -/
  columns : Option Nat

/-- Rows carried by value, all committed and visible to everyone. -/
def RowSource.committed (columns : Option Nat) : RowSource NumberedRow :=
  { project := fun r => r.row.project
    rowId := NumberedRow.rowId
    versionId := fun _ => 0
    visible := fun _ _ => true
    claims := fun _ _ => true
    columns }

end TableIndex
