import TableIndex.Index.KeyOrder

/-!
# Index configurations

The name, the key and the role of an index. A primary key is unique, and it is a constraint, as is
an index that backs a foreign key to a table declared later.
-/

namespace TableIndex

structure Index.Config where
  name : String
  persistenceId : Int := 0
  key : KeyOrder := []
  unique : Bool := false
  primaryKey : Bool := false
  constraint : Bool := false
  forward : Bool := false
  deriving DecidableEq, Repr

namespace Index.Config

def withColumn (c : Index.Config) (column : KeyColumn) : Index.Config :=
  { c with key := c.key ++ [column] }

def asUnique (c : Index.Config) : Index.Config := { c with unique := true }

def asPrimaryKey (c : Index.Config) : Index.Config :=
  { c with primaryKey := true, unique := true, constraint := true }

def asConstraint (c : Index.Config) : Index.Config := { c with constraint := true }

def asForward (c : Index.Config) : Index.Config := { c with forward := true, constraint := true }

/-- The index admits a key without nulls only once. -/
def isUnique (c : Index.Config) : Bool := c.unique || c.primaryKey

/-- The first position that also stands earlier in a list. -/
def repeated? (seen : List Nat) : List Nat → Option Nat
  | [] => none
  | p :: rest => if p ∈ seen then some p else repeated? (p :: seen) rest

def validate (c : Index.Config) : Except Error Unit :=
  if c.key.isEmpty then .error (.badConfig (.noColumns c.name))
  else match repeated? [] (c.key.map KeyColumn.position) with
    | some position => .error (.badConfig (.repeatedColumn c.name position))
    | none => .ok ()

end Index.Config
end TableIndex
