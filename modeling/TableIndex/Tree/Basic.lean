import TableIndex.Slot.Arena

/-!
# Balanced trees of rows

Nodes live in an arena and name each other by slot. A tree knows nothing of keys: whoever searches
it says how a row lies to what is sought. The balance of a node is the height of its left subtree
less that of its right one, and between operations it is at most 1 either way.
-/

namespace TableIndex

inductive Side
  | left
  | right
  deriving DecidableEq, Repr

namespace Side

def other : Side → Side
  | left => right
  | right => left

/-- What one level on this side adds to a balance. -/
def weight : Side → Int
  | left => 1
  | right => -1

end Side

structure Node (α : Type) where
  row : α
  left : Link
  right : Link
  parent : Link
  balance : Int
  deriving DecidableEq, Repr

namespace Node

variable {α : Type}

instance [Inhabited α] : Inhabited (Node α) := ⟨⟨default, none, none, none, 0⟩⟩

def child (n : Node α) : Side → Link
  | .left => n.left
  | .right => n.right

def withChild (n : Node α) (side : Side) (l : Link) : Node α :=
  match side with
  | .left => { n with left := l }
  | .right => { n with right := l }

/-- The side on which a child hangs: right unless it is the left one. -/
def sideOf (n : Node α) (child : Link) : Side := if n.left = child then .left else .right

end Node

structure Tree (α : Type) where
  nodes : Arena (Node α)
  root : Link
  deriving Repr

namespace Tree

variable {α : Type} [Inhabited α]

/-- The node count that a tree starts with, and the least that it grows to. -/
def minNodes : Nat := 16

/-- An empty tree with space for `capacity` nodes, at least one. -/
def ofCapacity (capacity : Nat) (guarded : Bool := false) : Tree α :=
  ⟨.ofCapacity (max 1 (min capacity maxSlots)) guarded, none⟩

def empty : Tree α := ofCapacity minNodes

def size (t : Tree α) : Nat := t.nodes.size

def isEmpty (t : Tree α) : Bool := t.root.isNone

def node (t : Tree α) (l : Link) : Checked (Node α) := t.nodes.fetch l

def row (t : Tree α) (l : Link) : Checked α := return (← t.node l).row

/-- Changes one node. -/
def edit (t : Tree α) (l : Link) (f : Node α → Node α) : Checked (Tree α) :=
  return { t with nodes := ← t.nodes.update l f }

/-- Frees every node; the space stays. -/
def clear (t : Tree α) : Tree α := ⟨t.nodes.clear, none⟩

end Tree
end TableIndex
