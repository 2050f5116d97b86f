import TableIndex.Tree.Balance
import TableIndex.Tree.Walk

/-!
# Inserting and removing

A new row becomes a leaf. A node with two children is removed by taking over the row of its
successor, whose node, which has no left child, is unlinked in its place.
-/

namespace TableIndex.Tree

variable {α : Type} [Inhabited α]

/-- The bytes of a node. -/
def nodeWidth : Nat := 64

/-- Doubles the space when every node is taken. -/
def makeRoom (t : Tree α) (grants : Allocator := .addressable) : Except Error (Tree α) :=
  let current := t.nodes.capacity
  if t.nodes.hasFree then .ok t
  else if maxSlots ≤ current then .error (.full (current + 1) maxSlots)
  else do
    let capacity := max minNodes (min (2 * current) maxSlots)
    return { t with nodes := ← t.nodes.grow nodeWidth capacity grants }

/-- Puts a new node into a gap and rebalances. -/
def attach (t : Tree α) (gap : Gap) (row : α) (grants : Allocator := .addressable) :
    Checked (Except Error Slot × Tree α) := do
  match t.makeRoom grants with
  | .error e => return (.error e, t)
  | .ok t =>
      match t.nodes.allocate ⟨row, none, none, gap.parent, 0⟩ with
      | (none, _) => return (.error (.damaged .noFreeNode), t)
      | (some s, nodes) =>
          let t := { t with nodes }
          let t ← match gap.parent with
            | none => pure { t with root := some s }
            | parent => t.edit parent (·.withChild gap.side (some s))
          return (.ok s, ← retraceGrowth t.retraceReach t (some s))

/-- Inserts a row where `order` leads. -/
def insertBy (t : Tree α) (row : α) (order : List α → α → Ordering)
    (grants : Allocator := .addressable) : Checked (Except Error Slot × Tree α) := do
  t.attach (← t.gapBy order) row grants

/-- Inserts a row after all rows equal to it; `order` is its order to a row of the tree. -/
def insert (t : Tree α) (row : α) (order : α → Ordering) (grants : Allocator := .addressable) :
    Checked (Except Error Slot × Tree α) :=
  t.insertBy row (fun _ => order) grants

/-- Exchanges the rows of two nodes. -/
def swapRows (t : Tree α) (a b : Link) : Checked (Tree α) := do
  let rowA ← t.row a
  let rowB ← t.row b
  let t ← t.edit a fun n => { n with row := rowB }
  t.edit b fun n => { n with row := rowA }

/-- Brings the row of a node into a node with at most one child, and gives that node. -/
def isolate (t : Tree α) (l : Link) : Checked (Link × Tree α) := do
  let node ← t.node l
  if node.left.isNone || node.right.isNone then return (l, t)
  let successor ← t.extreme .left node.right
  return (successor, ← t.swapRows l successor)

/-- Unlinks a node with at most one child and gives its row. -/
def unlink (t : Tree α) (l : Link) : Checked (Option α × Tree α) := do
  let node ← t.node l
  let child := if node.left.isSome then node.left else node.right
  let side ← match node.parent with
    | none => pure .right
    | parent => do pure ((← t.node parent).sideOf l)
  let t ← t.setParent child node.parent
  let t ← t.relink node.parent l child
  let (removed, nodes) := t.nodes.release l
  let t ← retraceShrinkage t.retraceReach { t with nodes } node.parent side
  return (removed.map Node.row, t)

/-- Removes the row of a live node and gives it; any other link changes nothing. -/
def remove (t : Tree α) (l : Link) : Checked (Option α × Tree α) := do
  if !t.nodes.contains l then return (none, t)
  let (target, t) ← t.isolate l
  t.unlink target

/-- Removes the first row that does not lie before what is sought, if it lies exactly there, and
gives the node it was found in. `order` is the order of a row to what is sought. -/
def erase (t : Tree α) (order : α → Ordering) : Checked (Option (Slot × Option α) × Tree α) := do
  match ← t.find order with
  | none => return (none, t)
  | some s =>
      let (removed, t) ← t.remove (some s)
      return (some (s, removed), t)

end TableIndex.Tree
