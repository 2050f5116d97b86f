/-!
# Isolation levels
-/

namespace TableIndex

/-- What a transaction sees of others: every commit, or those before its begin. -/
inductive Isolation
  | readCommitted
  | snapshot
  deriving DecidableEq, Repr, Inhabited

namespace Isolation

def code : Isolation → Nat
  | readCommitted => 0
  | snapshot => 1

def ofCode? : Nat → Option Isolation
  | 0 => some readCommitted
  | 1 => some snapshot
  | _ => none

theorem ofCode?_code (i : Isolation) : ofCode? i.code = some i := by cases i <;> rfl

def render : Isolation → String
  | readCommitted => "READ COMMITTED"
  | snapshot => "SNAPSHOT ISOLATION"

end Isolation
end TableIndex
