import TableIndex.Tree.Basic

/-!
# Rebalancing

After a subtree has grown or shrunk, the balances above it are corrected on the way to the root. A
node that leans by two is set right by one rotation, or two where its taller child leans the other
way.
-/

namespace TableIndex.Tree

variable {α : Type} [Inhabited α]

/-- Makes the parent's link to `old`, or the root, a link to `new`. -/
def relink (t : Tree α) (parent old new : Link) : Checked (Tree α) :=
  match parent with
  | none => .ok { t with root := new }
  | _ => do
      let side := (← t.node parent).sideOf old
      t.edit parent (·.withChild side new)

/-- Makes `parent` the parent of a node, if there is one. -/
def setParent (t : Tree α) (l parent : Link) : Checked (Tree α) :=
  match l with
  | none => .ok t
  | _ => t.edit l fun n => { n with parent }

/-- Moves a node down to a side; its child on the other side takes its place. -/
def rotate (t : Tree α) (side : Side) (x : Link) : Checked (Link × Tree α) := do
  let z := (← t.node x).child side.other
  let inner := (← t.node z).child side
  let parent := (← t.node x).parent
  let t ← t.edit x (·.withChild side.other inner)
  let t ← t.setParent inner x
  let t ← t.edit z (·.withChild side x)
  let t ← t.edit x fun n => { n with parent := z }
  let t ← t.edit z fun n => { n with parent }
  let t ← t.relink parent x z
  let w := side.weight
  let lower := w * (← t.node x).balance
  let upper := w * (← t.node z).balance
  let lower := lower + 1 - min upper 0
  let upper := upper + 1 + max lower 0
  let t ← t.edit x fun n => { n with balance := w * lower }
  let t ← t.edit z fun n => { n with balance := w * upper }
  return (z, t)

/-- The side to which a node leans by two or more. -/
def heavySide (balance : Int) : Option Side :=
  if 1 < balance then some .left else if balance < -1 then some .right else none

/-- Sets a node that leans by two right, and gives the new root of its subtree. -/
def rebalance (t : Tree α) (l : Link) : Checked (Link × Tree α) := do
  let node ← t.node l
  match heavySide node.balance with
  | none => return (l, t)
  | some side =>
      let child := node.child side
      let t ← if side.weight * (← t.node child).balance < 0 then Prod.snd <$> t.rotate side child
        else pure t
      t.rotate side.other l

/-- Steps that a retrace may take. -/
def retraceReach (t : Tree α) : Nat := 4 * t.nodes.capacity + 4

/-- Corrects the balances above a subtree that has grown by one level. -/
def retraceGrowth : Nat → Tree α → Link → Checked (Tree α)
  | 0, _, _ => .error .endless
  | fuel + 1, t, child => do
      match (← t.node child).parent with
      | none => return t
      | parent =>
          let node ← t.node parent
          let balance := node.balance + (node.sideOf child).weight
          let t ← t.edit parent fun n => { n with balance }
          if balance = 0 then return t
          else if balance = 1 ∨ balance = -1 then retraceGrowth fuel t parent
          else Prod.snd <$> t.rebalance parent

/-- Corrects the balances from a node up whose subtree on `side` has shrunk by one level. -/
def retraceShrinkage : Nat → Tree α → Link → Side → Checked (Tree α)
  | _, t, none, _ => .ok t
  | 0, _, some _, _ => .error .endless
  | fuel + 1, t, some s, side => do
      let balance := (← t.node (some s)).balance - side.weight
      let t ← t.edit (some s) fun n => { n with balance }
      if balance = 1 ∨ balance = -1 then return t
      let (top, t) ← if balance = 0 then pure (some s, t) else t.rebalance (some s)
      let node ← t.node top
      if node.balance ≠ 0 then return t
      match node.parent with
      | none => return t
      | some up => retraceShrinkage fuel t (some up) ((← t.node (some up)).sideOf top)

end TableIndex.Tree
