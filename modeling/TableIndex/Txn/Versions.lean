import TableIndex.RowSource
import TableIndex.Txn.Registry

/-!
# Row versions

Versions are appended with the transaction that created them and marked with the one that deletes
them. They are never removed, so their numbers stay valid.
-/

namespace TableIndex

/-- The number of a version, stored or not. -/
structure VersionRef where
  index : Nat
  deriving DecidableEq, Repr

instance : Inhabited VersionRef := ⟨⟨0⟩⟩

structure Version where
  rowId : Int
  row : Row
  createdBy : Int
  deletedBy : Option Int
  deriving DecidableEq, Repr

structure Versions where
  stored : Array Version := #[]
  /-- The number of columns, if it is declared. -/
  columns : Option Nat := none
  deriving Repr

namespace Versions

/-- The number of versions that can be numbered. -/
def limit : Nat := UInt32.size - 1

def size (s : Versions) : Nat := s.stored.size

def isEmpty (s : Versions) : Bool := s.stored.isEmpty

def get? (s : Versions) (r : VersionRef) : Option Version := s.stored[r.index]?

/-- Appends a version created by an active transaction. -/
def insert (s : Versions) (reg : Registry) (txn rowId : Int) (row : Row) :
    Except Error VersionRef × Versions :=
  if !reg.isActive txn then (.error (.notActive txn), s)
  else if limit < s.size then (.error (.full (s.size + 1) limit), s)
  else (.ok ⟨s.size⟩, { s with stored := s.stored.push ⟨rowId, row, txn, none⟩ })

/-- The version bears the mark of `txn` or of another transaction that is active or committed. -/
def isMarked (reg : Registry) (v : Version) (txn : Int) : Bool :=
  v.deletedBy.any fun d => decide (d = txn) || reg.isActive d || reg.isCommitted d

/-- Marks a version deleted by an active transaction. False if the version is not stored or another
transaction that did not abort has deleted it; the mark of an aborted one is overwritten. -/
def delete (s : Versions) (reg : Registry) (txn : Int) (r : VersionRef) :
    Except Error Bool × Versions :=
  if !reg.isActive txn then (.error (.notActive txn), s)
  else match s.get? r with
    | none => (.ok false, s)
    | some v =>
        if isMarked reg v txn then (.ok false, s)
        else
          let marked := { v with deletedBy := some txn }
          (.ok true, { s with stored := s.stored.setIfInBounds r.index marked })

/-- A view sees the deletion of a version. -/
def deletionSeen (reg : Registry) (viewer : Viewer) (v : Version) : Bool :=
  v.deletedBy.any (reg.sees viewer)

/-- A view sees the creation of a version and not its deletion. -/
def versionVisible (reg : Registry) (viewer : Viewer) (v : Version) : Bool :=
  reg.sees viewer v.createdBy && !deletionSeen reg viewer v

/-- The stored versions as a source. A version that is not stored has no values and precedes all
rows of its key, and no one sees it. -/
def source (s : Versions) (reg : Registry) : RowSource VersionRef :=
  { project := fun r i => (s.get? r).elim .null (·.row.project i)
    rowId := fun r => (s.get? r).elim Int64.minValue.toInt Version.rowId
    versionId := VersionRef.index
    visible := fun viewer r => (s.get? r).any (versionVisible reg viewer)
    claims := fun viewer r =>
      (s.get? r).any fun v => !reg.isAborted v.createdBy && !deletionSeen reg viewer v
    columns := s.columns }

end Versions
end TableIndex
