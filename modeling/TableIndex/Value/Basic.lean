import TableIndex.Binary.Nearest
import TableIndex.Binary.Text

/-!
# Column values

A value projected out of a row: null, a truth value, a number or a text. Floating-point numbers are
64-bit patterns, so that NaNs keep their payloads.
-/

namespace TableIndex

inductive Value
  | null
  | boolean (b : Bool)
  | integer (n : Int64)
  | float (bits : UInt64)
  | text (s : String)
  deriving DecidableEq, Repr, Inhabited

namespace Value

def isNull : Value → Bool
  | null => true
  | _ => false

/-- The nearest 64-bit integer to a whole number. -/
def clampInt64 (n : Int) : Int64 :=
  Int64.ofInt (max Int64.minValue.toInt (min n Int64.maxValue.toInt))

/-- The integer in a float: the fraction is lost, the ends of the range are not passed, and a NaN
counts as zero. -/
def integerOf (bits : Nat) : Int64 :=
  if Binary.binary64.isNaN bits then 0 else clampInt64 (Binary.binary64.truncate bits)

/-- The value as an integer; a truth value is 0 or 1. -/
def asInteger? : Value → Option Int64
  | integer n => some n
  | float bits => some (integerOf bits.toNat)
  | boolean b => some (if b then 1 else 0)
  | _ => none

/-- The pattern of the float nearest to an integer. -/
def floatOfInt (n : Int64) : UInt64 := UInt64.ofNat (Binary.binary64.ofInt n.toInt)

/-- The value as the pattern of a float. -/
def asFloat? : Value → Option UInt64
  | integer n => some (floatOfInt n)
  | float bits => some bits
  | _ => none

def asText? : Value → Option String
  | text s => some s
  | _ => none

def ofInt32 (n : Int32) : Value := integer n.toInt64

/-- The value of an optional item, null when there is none. -/
def ofOption {α : Type} (f : α → Value) (a : Option α) : Value := a.elim null f

/-- The text of a value. -/
def render : Value → String
  | null => "NULL"
  | boolean b => if b then "true" else "false"
  | integer n => toString n.toInt
  | float bits => Binary.binary64.text bits.toNat
  | text s => s

end Value
end TableIndex
