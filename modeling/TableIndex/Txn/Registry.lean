import TableIndex.Error
import TableIndex.Txn.Viewer

/-!
# Transaction registry

Transactions are numbered from 1 in the order of their begins, and end once, by a commit or an
abort. Begins and commits draw from one sequence. Kept are those that are active and those that have
committed; one that has aborted is forgotten, and known only from its number having been issued. The
bootstrap transaction, which loads rows outside any other, is always committed and is not numbered.
-/

namespace TableIndex

/-- What is recorded of transactions, for each of them once. -/
abbrev ByTxn (α : Type) := List (Int × α)

namespace ByTxn

variable {α : Type}

def forget (m : ByTxn α) (txn : Int) : ByTxn α := m.filter fun entry => entry.1 != txn

def record (m : ByTxn α) (txn : Int) (a : α) : ByTxn α := (txn, a) :: m.forget txn

theorem lookup_forget (m : ByTxn α) (txn u : Int) :
    (m.forget txn).lookup u = if u = txn then none else m.lookup u := by
  unfold forget
  induction m with
  | nil => simp
  | cons entry rest ih =>
      obtain ⟨t, a⟩ := entry
      by_cases ht : t = txn
      · subst ht
        by_cases hu : u = t
        · simpa [hu] using ih
        · have hne : (u == t) = false := by simpa using hu
          simpa [hu, List.lookup_cons, hne] using ih
      · by_cases hu : u = t
        · subst hu
          simp [ht]
        · have hne : (u == t) = false := by simpa using hu
          simpa [ht, List.lookup_cons, hne] using ih

theorem lookup_record (m : ByTxn α) (txn : Int) (a : α) (u : Int) :
    (m.record txn a).lookup u = if u = txn then some a else m.lookup u := by
  by_cases hu : u = txn
  · simp [record, hu]
  · have hne : (u == txn) = false := by simpa using hu
    rw [if_neg hu, ← (lookup_forget m txn u).trans (if_neg hu), record]
    simp [List.lookup_cons, hne]

end ByTxn

structure Registry where
  /-- The number of the last transaction that began. -/
  lastTxn : Int := 0
  /-- The last number drawn by a begin or a commit. -/
  sequence : Int := 0
  /-- The begins of the active transactions. -/
  active : ByTxn Int := []
  /-- The commits of the committed ones. -/
  committed : ByTxn Int := []
  globalLevel : Isolation := .readCommitted
  /-- Levels set for single transactions. -/
  overrides : ByTxn Isolation := []
  accepting : Bool := true
  deriving Repr

namespace Registry

def bootstrap : Int := -1

def setGlobalLevel (r : Registry) (level : Isolation) : Registry := { r with globalLevel := level }

/-- Sets the level of one transaction, issued or not, until it ends. -/
def setLevel (r : Registry) (txn : Int) (level : Isolation) : Registry :=
  { r with overrides := r.overrides.record txn level }

/-- The level set for a transaction, or else the global one. -/
def level (r : Registry) (txn : Int) : Isolation :=
  (r.overrides.lookup txn).getD r.globalLevel

/-- When a transaction that is active began. -/
def begunAt? (r : Registry) (txn : Int) : Option Int := r.active.lookup txn

/-- When a transaction committed. The bootstrap transaction has no commit of its own. -/
def committedAt? (r : Registry) (txn : Int) : Option Int := r.committed.lookup txn

def isActive (r : Registry) (txn : Int) : Bool := (r.begunAt? txn).isSome

def isCommitted (r : Registry) (txn : Int) : Bool :=
  decide (txn = bootstrap) || (r.committedAt? txn).isSome

/-- The transaction was issued and ended without a commit. -/
def isAborted (r : Registry) (txn : Int) : Bool :=
  decide (0 < txn) && decide (txn ≤ r.lastTxn) && !r.isActive txn && !r.isCommitted txn

def numActive (r : Registry) : Nat := r.active.length

/-- Begins a transaction and gives its number and the sequence number of its begin. -/
def begin (r : Registry) : Except Error (Int × Int) × Registry :=
  if r.accepting then
    let txn := r.lastTxn + 1
    let sequence := r.sequence + 1
    (.ok (txn, sequence),
      { r with lastTxn := txn, sequence, active := r.active.record txn sequence })
  else (.error .closed, r)

/-- Begins a transaction at a level of its own. -/
def beginAt (r : Registry) (level : Isolation) : Except Error (Int × Int) × Registry :=
  match r.begin with
  | (.ok (txn, sequence), r) => (.ok (txn, sequence), r.setLevel txn level)
  | failed => failed

/-- Commits an active transaction and gives the sequence number of the commit. -/
def commit (r : Registry) (txn : Int) : Except Error Int × Registry :=
  if r.isActive txn then
    let sequence := r.sequence + 1
    (.ok sequence,
      { r with
        sequence
        active := r.active.forget txn
        committed := r.committed.record txn sequence
        overrides := r.overrides.forget txn })
  else (.error (.notActive txn), r)

/-- Aborts an active transaction. -/
def abort (r : Registry) (txn : Int) : Except Error Unit × Registry :=
  if r.isActive txn then
    (.ok (), { r with active := r.active.forget txn, overrides := r.overrides.forget txn })
  else (.error (.notActive txn), r)

/-- The view of an active transaction. -/
def viewer (r : Registry) (txn session : Int) : Except Error Viewer :=
  match r.begunAt? txn with
  | some snapshot => .ok { session, txn, isolation := r.level txn, snapshot }
  | none => .error (.notActive txn)

/-- A snapshot taken at `snapshot` holds the commit of a transaction. -/
def committedBy (r : Registry) (txn snapshot : Int) : Bool :=
  decide (txn = bootstrap) || (r.committedAt? txn).any (· ≤ snapshot)

/-- A version written by `writer` is visible under a view. -/
def sees (r : Registry) (v : Viewer) (writer : Int) : Bool :=
  decide (writer = v.txn) ||
    match v.isolation with
    | .readCommitted => r.isCommitted writer
    | .snapshot => r.committedBy writer v.snapshot

/-- A version written by `writer` is visible to a transaction, at its level now. One that is not
active has no snapshot. -/
def visibleTo (r : Registry) (writer reader : Int) : Bool :=
  decide (writer = reader) ||
    match r.level reader with
    | .readCommitted => r.isCommitted writer
    | .snapshot => (r.begunAt? reader).any (r.committedBy writer ·)

def close (r : Registry) : Registry := { r with accepting := false }

def reopen (r : Registry) : Registry := { r with accepting := true }

end Registry
end TableIndex
