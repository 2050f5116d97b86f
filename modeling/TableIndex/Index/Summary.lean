import TableIndex.Index.Basic
import TableIndex.Text.Fields
import TableIndex.Text.Quoted

/-!
# Summary text of an index
-/

namespace TableIndex

def KeyColumn.summary (c : KeyColumn) : String :=
  Text.fields "IndexColumn" [
    ("position", toString c.position),
    ("direction", if c.isDescending then "Descending" else "Ascending"),
    ("nulls", if c.isNullsLast then "Last" else "First")]

/-- What an index is for and how many rows it holds, in one line. -/
def Index.summary {ρ : Type} [Inhabited ρ] (x : Index ρ) : String :=
  let c := x.config
  let columns := "[" ++ ", ".intercalate (c.key.map KeyColumn.summary) ++ "]"
  let metadata := Text.fields "IndexMetadata" [
    ("name", Text.quoted c.name),
    ("persistence_id", toString c.persistenceId),
    ("columns", columns),
    ("unique", toString c.isUnique),
    ("primary_key", toString c.primaryKey),
    ("constraint", toString c.constraint),
    ("forward", toString c.forward)]
  Text.fields "OrderedIndex" [("metadata", metadata), ("len", toString x.size)]

end TableIndex
