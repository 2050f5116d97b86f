import TableIndex.Datum
import TableIndex.Binary.Text

/-!
# Errors and faults

An error is an answer: a full table, a broken rule, an operation out of turn, or damage that a
check found. Absent keys and rows are never errors. A fault is a slot that should not have been
addressed; no operation goes on after one.
-/

namespace TableIndex

/-- The part of an entry that a datum was meant for. -/
inductive Part
  | key
  | value
  deriving DecidableEq, Repr

/-- What is wrong with a configuration. -/
inductive ConfigFlaw
  /-- The load factor, a 32-bit pattern, is not in `(0, 1]`. -/
  | loadFactor (bits : UInt32)
  | maxCapacity (limit given : Nat)
  | initialCapacity (slots limit : Nat)
  | noColumns (index : String)
  | repeatedColumn (index : String) (position : Nat)
  | stated (text : String)
  deriving DecidableEq, Repr

/-- What a check of a table or a tree found. A missing link is `none`. -/
inductive Damage
  | noFreeSlot
  | bucketToFreeSlot (bucket slot : Nat)
  | wrongBucket (slot bucket : Nat)
  | chainCycle
  | unreachableSlots (live seen : Nat)
  | missingKey (slot : Nat)
  | staleHash (slot : Nat)
  | noFreeNode
  | rootHasParent
  | linkToFreeNode (slot : Nat)
  | linkCycle
  | wrongParent (slot : Nat) (found expected : Option Nat)
  | unbalanced (slot left right : Nat)
  | wrongBalance (slot : Nat) (stored measured : Int)
  | endlessWalk
  | outOfOrder (before after : Nat)
  | unreachableNodes (live seen : Nat)
  | stated (text : String)
  deriving DecidableEq, Repr

inductive Error
  | full (requested limit : Nat)
  | wrongRepresentation (part : Part) (expected got : Representation)
  | noValueColumn
  | noSuchColumn (index : String) (position : Nat)
  | badConfig (flaw : ConfigFlaw)
  | duplicateKey (index key : String)
  | notActive (txn : Int)
  | closed
  | damaged (damage : Damage)
  deriving DecidableEq, Repr

def Part.render : Part → String
  | key => "key"
  | value => "value"

namespace ConfigFlaw

def message : ConfigFlaw → String
  | loadFactor bits =>
      "load factor must be in (0, 1], got " ++ Binary.binary32.text bits.toNat
  | maxCapacity limit given => s!"max capacity must be in [1, {limit}], got {given}"
  | initialCapacity slots limit => s!"initial capacity {slots} exceeds max capacity {limit}"
  | noColumns index => s!"index {index} has no columns"
  | repeatedColumn index position => s!"index {index} repeats column {position}"
  | stated text => text

end ConfigFlaw

namespace Damage

/-- A missing link is written as the largest 32-bit number, which is never a slot. -/
def linkText : Option Nat → String
  | some slot => toString slot
  | none => toString (UInt32.size - 1)

def message : Damage → String
  | noFreeSlot => "hash index has no free slot after rehash"
  | bucketToFreeSlot bucket slot => s!"bucket {bucket} links to free slot {slot}"
  | wrongBucket slot bucket => s!"slot {slot} chained into wrong bucket {bucket}"
  | chainCycle => "hash chain cycle detected"
  | unreachableSlots live seen => s!"{live} live slots but {seen} reachable"
  | missingKey slot => s!"live slot {slot} has no key"
  | staleHash slot => s!"slot {slot} cached hash does not match its key"
  | noFreeNode => "node arena full after growth"
  | rootHasParent => "root has a parent link"
  | linkToFreeNode slot => s!"link to free node {slot}"
  | linkCycle => "cycle in node links"
  | wrongParent slot found expected =>
      s!"node {slot} parent link " ++ linkText found ++ " should be " ++ linkText expected
  | unbalanced slot left right =>
      s!"node {slot} unbalanced: left height {left}, right height {right}"
  | wrongBalance slot stored measured =>
      s!"node {slot} stored balance {stored} but measured {measured}"
  | endlessWalk => "in-order walk does not terminate"
  | outOfOrder a b => s!"nodes {a} and {b} out of order"
  | unreachableNodes live seen => s!"{live} live nodes but {seen} reachable"
  | stated text => text

end Damage

namespace Error

def message : Error → String
  | full requested limit =>
      s!"capacity exhausted: {requested} slots requested, limit is {limit}"
  | wrongRepresentation part expected got =>
      part.render ++ " representation mismatch, expected " ++ expected.render ++ ", got " ++
        got.render
  | noValueColumn => "map has no value column"
  | noSuchColumn index position => s!"column position {position} out of range for index {index}"
  | badConfig flaw => "invalid configuration: " ++ flaw.message
  | duplicateKey index key => s!"unique constraint failed for index {index} with key {key}"
  | notActive txn => s!"transaction {txn} is not active"
  | closed => "transaction registry is not accepting new transactions"
  | damaged damage => damage.message

def isCapacity : Error → Bool
  | full .. => true
  | _ => false

def isConstraint : Error → Bool
  | duplicateKey .. => true
  | _ => false

/-- The caller broke the contract of a map or an index. -/
def isContract : Error → Bool
  | wrongRepresentation .. | noValueColumn | noSuchColumn .. | badConfig _ => true
  | _ => false

def isTransaction : Error → Bool
  | notActive _ | closed => true
  | _ => false

end Error

/-- Why a slot could not be addressed. -/
inductive Fault
  | missing
  | outOfRange (slot size : Nat)
  | free (slot : Nat)
  /-- A walk along links took more steps than there are slots. -/
  | endless
  deriving DecidableEq, Repr

/-- The result of an operation that addresses slots. -/
abbrev Checked := Except Fault

end TableIndex
