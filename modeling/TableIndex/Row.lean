import TableIndex.Error
import TableIndex.Value.Order

/-!
# Rows

An immutable sequence of column values, and a row carried together with its identity.
-/

namespace TableIndex

structure Row where
  values : List Value
  deriving DecidableEq, Repr, Inhabited

namespace Row

def size (r : Row) : Nat := r.values.length

def isEmpty (r : Row) : Bool := r.values.isEmpty

/-- The value at a position, if the row is that wide. -/
def get? (r : Row) (position : Nat) : Option Value := r.values[position]?

/-- The value at a position that the row must have. -/
def read (r : Row) (position : Nat) : Checked Value :=
  (r.get? position).elim (.error (.outOfRange position r.size)) .ok

/-- The value at a position; null past the end. -/
def project (r : Row) (position : Nat) : Value := (r.get? position).getD .null

/-- Rows are equal when they are equally wide and their values are equal. -/
instance : BEq Row := ⟨fun a b => a.values == b.values⟩

def render (r : Row) : String := "(" ++ ", ".intercalate (r.values.map Value.render) ++ ")"

end Row

/-- A row carried by value with its identity. -/
structure NumberedRow where
  rowId : Int
  row : Row
  deriving DecidableEq, Repr

instance : Inhabited NumberedRow := ⟨⟨0, ⟨[]⟩⟩⟩

instance : BEq NumberedRow := ⟨fun a b => a.rowId == b.rowId && a.row == b.row⟩

end TableIndex
