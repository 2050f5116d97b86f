/-!
# Column data

A key or value of a map is held in one of three representations, fixed for each column.
-/

namespace TableIndex

inductive Representation
  | reference
  | int32
  | int64
  deriving DecidableEq, Repr, Inhabited

namespace Representation

def isInteger : Representation → Bool
  | reference => false
  | int32 | int64 => true

def code : Representation → Nat
  | reference => 0
  | int32 => 1
  | int64 => 2

def ofCode? : Nat → Option Representation
  | 0 => some reference
  | 1 => some int32
  | 2 => some int64
  | _ => none

theorem ofCode?_code (r : Representation) : ofCode? r.code = some r := by cases r <;> rfl

def render : Representation → String
  | reference => "REFERENCE"
  | int32 => "INT32"
  | int64 => "INT64"

end Representation

/-- One key or value; references are of type `ρ`. -/
inductive Datum (ρ : Type)
  | reference (r : ρ)
  | int32 (n : Int32)
  | int64 (n : Int64)
  deriving DecidableEq, Repr

namespace Datum

variable {ρ : Type}

def representation : Datum ρ → Representation
  | reference _ => .reference
  | int32 _ => .int32
  | int64 _ => .int64

def asReference? : Datum ρ → Option ρ
  | reference r => some r
  | _ => none

def asInt32? : Datum ρ → Option Int32
  | int32 n => some n
  | _ => none

def asInt64? : Datum ρ → Option Int64
  | int64 n => some n
  | _ => none

def render (text : ρ → String) : Datum ρ → String
  | reference r => text r
  | int32 n => toString n.toInt
  | int64 n => toString n.toInt

end Datum
end TableIndex
