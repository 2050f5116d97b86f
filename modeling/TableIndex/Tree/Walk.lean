import TableIndex.Tree.Basic

/-!
# Walks in a tree

Searches from the root, and steps from a node to its neighbour in order. A walk that visits no node
twice takes at most as many steps as there are slots; a longer one would never end.
-/

namespace TableIndex

/-- Where a new row belongs: the link to fill, and the nodes that will stand before and after. -/
structure Gap where
  parent : Link
  side : Side
  before : Link
  after : Link
  deriving DecidableEq, Repr

namespace Tree

variable {α : Type} [Inhabited α]

/-- Steps that a walk may take. -/
def reach (t : Tree α) : Nat := t.nodes.capacity

def descendTo (t : Tree α) (side : Side) : Nat → Link → Checked Link
  | 0, _ => .error .endless
  | fuel + 1, l => do
      match (← t.node l).child side with
      | none => return l
      | child => descendTo t side fuel child

/-- The last node toward a side in the subtree of a node. -/
def extreme (t : Tree α) (side : Side) (l : Link) : Checked Link := t.descendTo side t.reach l

/-- The end of the order on a side. -/
def endmost (t : Tree α) (side : Side) : Checked Link :=
  match t.root with
  | none => .ok none
  | root => t.extreme side root

def first (t : Tree α) : Checked Link := t.endmost .left

def last (t : Tree α) : Checked Link := t.endmost .right

/-- The first ancestor that is not reached from its child on `side`. -/
def climb (t : Tree α) (side : Side) : Nat → Link → Link → Checked Link
  | _, _, none => .ok none
  | 0, _, some _ => .error .endless
  | fuel + 1, child, some p => do
      let node ← t.node (some p)
      if node.child side = child then climb t side fuel (some p) node.parent else return some p

/-- The neighbour of a node in order, on a side. -/
def neighbor (t : Tree α) (side : Side) (l : Link) : Checked Link := do
  let node ← t.node l
  match node.child side with
  | none => t.climb side t.reach l node.parent
  | child => t.extreme side.other child

def next (t : Tree α) (l : Link) : Checked Link := t.neighbor .right l

def prev (t : Tree α) (l : Link) : Checked Link := t.neighbor .left l

def searchFrom (t : Tree α) (side : Side) (p : α → Bool) : Nat → Link → Link → Checked Link
  | _, found, none => .ok found
  | 0, _, some _ => .error .endless
  | fuel + 1, found, some s => do
      let node ← t.node (some s)
      if p node.row then searchFrom t side p fuel (some s) (node.child side)
      else searchFrom t side p fuel found (node.child side.other)

/-- The node nearest to a side whose row satisfies `p`, for a `p` that holds from some row on to the
other end of the order. -/
def boundary (t : Tree α) (side : Side) (p : α → Bool) : Checked Link :=
  t.searchFrom side p t.reach none t.root

/-- The first node that satisfies `p`, for a `p` that stays true once it is. -/
def findFirst (t : Tree α) (p : α → Bool) : Checked Link := t.boundary .left p

/-- The last node that satisfies `p`, for a `p` that stays false once it is. -/
def findLast (t : Tree α) (p : α → Bool) : Checked Link := t.boundary .right p

/-- The first node that does not lie before what is sought, if it lies exactly there. `order` is the
order of a row to what is sought. -/
def find (t : Tree α) (order : α → Ordering) : Checked Link := do
  match ← t.findFirst fun row => order row != .lt with
  | none => return none
  | some s => return if order (← t.row (some s)) = .eq then some s else none

/-- `order` may answer by the rows that were asked about before, the last one first. -/
def gapFrom (t : Tree α) (order : List α → α → Ordering) :
    Nat → List α → Gap → Link → Checked Gap
  | _, _, gap, none => .ok gap
  | 0, _, _, some _ => .error .endless
  | fuel + 1, asked, gap, some s => do
      let node ← t.node (some s)
      if order asked node.row = .lt then
        gapFrom t order fuel (node.row :: asked) ⟨some s, .left, gap.before, some s⟩ node.left
      else gapFrom t order fuel (node.row :: asked) ⟨some s, .right, some s, gap.after⟩ node.right

/-- Where a new row belongs; `order` is its order to a row of the tree, which may depend on the
rows asked about before. -/
def gapBy (t : Tree α) (order : List α → α → Ordering) : Checked Gap :=
  t.gapFrom order t.reach [] ⟨none, .left, none, none⟩ t.root

/-- Where a new row belongs, after all rows equal to it; `order` is its order to a row of the
tree. -/
def gap (t : Tree α) (order : α → Ordering) : Checked Gap := t.gapBy fun _ => order

def heightFrom (t : Tree α) : Nat → Link → Checked Nat
  | _, none => .ok 0
  | 0, some _ => .error .endless
  | fuel + 1, some s => do
      let node ← t.node (some s)
      return (← heightFrom t fuel (if node.balance < 0 then node.right else node.left)) + 1

/-- The height of the tree, measured along the taller side. -/
def height (t : Tree α) : Checked Nat := t.heightFrom t.reach t.root

def slotsFrom (t : Tree α) : Nat → Link → Checked (List Slot)
  | _, none => .ok []
  | 0, some _ => .error .endless
  | fuel + 1, some s => return s :: (← slotsFrom t fuel (← t.next (some s)))

/-- The nodes in order. -/
def slots (t : Tree α) : Checked (List Slot) := do t.slotsFrom t.reach (← t.first)

/-- The rows in order. -/
def toList (t : Tree α) : Checked (List α) := do (← t.slots).mapM fun s => t.row (some s)

def preorderFrom (t : Tree α) : Nat → Link → Checked (List Slot)
  | _, none => .ok []
  | 0, some _ => .error .endless
  | fuel + 1, some s => do
      let node ← t.node (some s)
      return s :: (← preorderFrom t fuel node.left) ++ (← preorderFrom t fuel node.right)

/-- The nodes with every node before its subtrees. -/
def preorder (t : Tree α) : Checked (List Slot) := t.preorderFrom t.reach t.root

end Tree
end TableIndex
