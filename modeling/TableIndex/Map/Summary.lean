import TableIndex.Map.Basic
import TableIndex.Text.Fields

/-!
# Summary text of a map
-/

namespace TableIndex

/-- The name of a representation in a summary. -/
def Representation.summary : Representation → String
  | .reference => "Reference"
  | .int32 => "Int32"
  | .int64 => "Int64"

/-- What a map holds and how full it is, in one line. -/
def Map.summary {κ ν : Type} [DecidableEq κ] (m : Map κ ν) : String :=
  Text.fields "BaseMap" [
    ("key", m.config.key.summary),
    ("value", m.config.value.elim "None" fun r => "Some(" ++ r.summary ++ ")"),
    ("len", toString m.size),
    ("capacity", toString m.capacity),
    ("rehash_count", toString m.resizes)]

end TableIndex
