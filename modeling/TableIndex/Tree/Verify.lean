import TableIndex.Tree.Walk

/-!
# Checking a tree

Links, heights and balances are checked from the root down, the heights measured and never trusted;
then the rows are checked in order.
-/

namespace TableIndex

/-- What a check found of a sound tree. -/
structure TreeShape where
  size : Nat
  height : Nat
  deriving DecidableEq, Repr

namespace Tree

variable {α : Type} [Inhabited α]

/-- Checks the balance of a node whose subtrees have the given heights, and gives its own height. -/
def checkBalance (s : Slot) (stored : Int) (left right : Nat) : Except Damage Nat :=
  let measured := (left : Int) - right
  if measured < -1 ∨ 1 < measured then .error (.unbalanced s left right)
  else if measured ≠ stored then .error (.wrongBalance s stored measured)
  else .ok (1 + max left right)

/-- Checks the subtree at a link of `parent`, at most `depth` levels deep, and gives its height. -/
def checkLinks (t : Tree α) : Nat → Link → Link → Except Damage Nat
  | _, none, _ => .ok 0
  | depth, some s, parent =>
      match t.nodes.get? (some s), depth with
      | none, _ => .error (.linkToFreeNode s)
      | some _, 0 => .error .linkCycle
      | some node, depth + 1 =>
          if node.parent ≠ parent then .error (.wrongParent s node.parent parent)
          else do
            let left ← checkLinks t depth node.left (some s)
            let right ← checkLinks t depth node.right (some s)
            checkBalance s node.balance left right

/-- Checks that no row lies after the next one, over at most `budget` nodes, and gives what is
left of the budget. -/
def checkOrder (t : Tree α) (order : α → α → Ordering) :
    Nat → Option (Slot × α) → Link → Checked (Except Damage Nat)
  | budget, _, none => .ok (.ok budget)
  | 0, _, some _ => .ok (.error .endlessWalk)
  | budget + 1, before, some s => do
      let row ← t.row (some s)
      match before.filter fun b => order b.2 row == .gt with
      | some b => return .error (.outOfOrder b.1 s)
      | none => checkOrder t order budget (some (s, row)) (← t.next (some s))

/-- The root is linked to a parent. -/
def rootHasParent (t : Tree α) : Checked Bool :=
  match t.root with
  | none => .ok false
  | root => return (← t.node root).parent.isSome

/-- Checks that the nodes in order are all nodes, and that their rows are in order. -/
def checkRows (t : Tree α) (order : α → α → Ordering) : Checked (Except Damage Unit) := do
  match ← t.checkOrder order t.size none (← t.first) with
  | .error damage => return .error damage
  | .ok 0 => return .ok ()
  | .ok left => return .error (.unreachableNodes t.size (t.size - left))

/-- Checks the whole tree; `order` compares two rows. -/
def verify (t : Tree α) (order : α → α → Ordering) : Checked (Except Error TreeShape) := do
  if ← t.rootHasParent then return .error (.damaged .rootHasParent)
  else
    match t.checkLinks (t.size + 1) t.root none with
    | .error damage => return .error (.damaged damage)
    | .ok height =>
        match ← t.checkRows order with
        | .error damage => return .error (.damaged damage)
        | .ok () => return .ok ⟨t.size, height⟩

end Tree
end TableIndex
