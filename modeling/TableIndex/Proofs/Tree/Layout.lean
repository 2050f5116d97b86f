import TableIndex.Proofs.Slot.Arena
import TableIndex.Proofs.Tree.Shape
import TableIndex.Tree.Update

/-!
# How a tree holds a shape

A shape is stored when every node of it holds its row, the links to its children and its parent,
and the difference of the heights as its balance. A tree is split at a path when the subtree at
its end is stored, and the path is stored as well, with balances that may still count an older
height of the subtree: that is the state in which a retrace finds and leaves every node.
-/

namespace TableIndex

/-- The node with the given children on `side` and on the other one. -/
def Node.facing {α : Type} (side : Side) (row : α) (near far parent : Link) (tilt : Int) : Node α :=
  match side with
  | .left => ⟨row, near, far, parent, tilt⟩
  | .right => ⟨row, far, near, parent, -tilt⟩

namespace Node

variable {α : Type}

@[simp] theorem facing_row (side : Side) (row : α) (near far parent : Link) (tilt : Int) :
    (facing side row near far parent tilt).row = row := by cases side <;> rfl

@[simp] theorem facing_parent (side : Side) (row : α) (near far parent : Link) (tilt : Int) :
    (facing side row near far parent tilt).parent = parent := by cases side <;> rfl

@[simp] theorem facing_child (side : Side) (row : α) (near far parent : Link) (tilt : Int) :
    (facing side row near far parent tilt).child side = near := by cases side <;> rfl

@[simp] theorem facing_child_other (side : Side) (row : α) (near far parent : Link) (tilt : Int) :
    (facing side row near far parent tilt).child side.other = far := by cases side <;> rfl

@[simp] theorem facing_balance (side : Side) (row : α) (near far parent : Link) (tilt : Int) :
    (facing side row near far parent tilt).balance = side.weight * tilt := by
  cases side <;> simp [facing, Side.weight]

@[simp] theorem facing_withChild (side : Side) (row : α) (near far parent l : Link) (tilt : Int) :
    (facing side row near far parent tilt).withChild side l =
      facing side row l far parent tilt := by cases side <;> rfl

@[simp] theorem facing_withChild_other (side : Side) (row : α) (near far parent l : Link)
    (tilt : Int) :
    (facing side row near far parent tilt).withChild side.other l =
      facing side row near l parent tilt := by cases side <;> rfl

theorem facing_setParent (side : Side) (row : α) (near far parent p : Link) (tilt : Int) :
    { facing side row near far parent tilt with parent := p } =
      facing side row near far p tilt := by cases side <;> rfl

theorem facing_setBalance (side : Side) (row : α) (near far parent : Link) (tilt b : Int) :
    { facing side row near far parent tilt with balance := side.weight * b } =
      facing side row near far parent b := by
  cases side <;> simp [facing, Side.weight]

theorem facing_setRow (side : Side) (row : α) (near far parent : Link) (tilt : Int) (x : α) :
    { facing side row near far parent tilt with row := x } =
      facing side x near far parent tilt := by cases side <;> rfl

/-- The side of a child that is not also the other child. -/
theorem facing_sideOf (side : Side) (row : α) {near far : Link} (parent : Link) (tilt : Int)
    (h : near ≠ far) : (facing side row near far parent tilt).sideOf near = side := by
  cases side
  · simp [facing, sideOf]
  · simp [facing, sideOf, Ne.symm h]

end Node

namespace Tree

variable {α : Type}

/-- The node in a live slot. -/
def nodeAt? (t : Tree α) (s : Slot) : Option (Node α) := t.nodes.get? (some s)

/-- The tree with the node of a live slot replaced. -/
def put (t : Tree α) (s : Slot) (n : Node α) : Tree α := { t with nodes := t.nodes.put s n }

@[simp] theorem put_root (t : Tree α) (s : Slot) (n : Node α) : (t.put s n).root = t.root := rfl

theorem node_of_nodeAt? {t : Tree α} {s : Slot} {n : Node α} (h : t.nodeAt? s = some n) :
    t.node (some s) = .ok n := Arena.fetch_of_get? h

theorem row_of_nodeAt? {t : Tree α} {s : Slot} {n : Node α} (h : t.nodeAt? s = some n) :
    t.row (some s) = .ok n.row := by
  simp [row, node_of_nodeAt? h]

theorem edit_of_nodeAt? {t : Tree α} {s : Slot} {n : Node α} (f : Node α → Node α)
    (h : t.nodeAt? s = some n) : t.edit (some s) f = .ok (t.put s (f n)) := by
  simp [edit, Arena.update_of_get? f h, put]

private theorem nodeAt?_put {t : Tree α} {s : Slot} {old : Node α} (h : t.nodeAt? s = some old)
    (n : Node α) (u : Slot) :
    (t.put s n).nodeAt? u = if u = s then some n else t.nodeAt? u := Arena.get?_put h n u

theorem nodeAt?_put_self {t : Tree α} {s : Slot} {old : Node α} (h : t.nodeAt? s = some old)
    (n : Node α) : (t.put s n).nodeAt? s = some n := by
  rw [nodeAt?_put h, if_pos rfl]

theorem nodeAt?_put_ne {t : Tree α} {s u : Slot} (h : u ≠ s) (n : Node α) :
    (t.put s n).nodeAt? u = t.nodeAt? u := by
  simp [nodeAt?, put, Arena.put, Arena.get?, Ne.symm h]

theorem sameSlots_put {t : Tree α} {s : Slot} {old : Node α} (h : t.nodeAt? s = some old)
    (n : Node α) : Arena.SameSlots t.nodes (t.put s n).nodes := Arena.SameSlots.put h n

end Tree

namespace Shape

variable {α : Type}

/-- Every node of the shape is in its slot, below `parent`. -/
def Stored (t : Tree α) : Link → Shape α → Prop
  | _, nil => True
  | parent, node l s x r =>
      t.nodeAt? s = some ⟨x, l.link, r.link, parent, l.height - r.height⟩ ∧
        l.Stored t (some s) ∧ r.Stored t (some s)

theorem stored_join (t : Tree α) (parent : Link) (side : Side) (p : Shape α) (s : Slot) (x : α)
    (q : Shape α) :
    (join side p s x q).Stored t parent ↔
      t.nodeAt? s = some (Node.facing side x p.link q.link parent (p.height - q.height)) ∧
        p.Stored t (some s) ∧ q.Stored t (some s) := by
  cases side
  · rfl
  · simp only [join, Stored, Node.facing, neg_sub]
    tauto

theorem Stored.congr {t t' : Tree α} {parent : Link} {sh : Shape α} (h : sh.Stored t parent)
    (hsame : ∀ s ∈ sh.slots, t'.nodeAt? s = t.nodeAt? s) : sh.Stored t' parent := by
  induction sh generalizing parent with
  | nil => trivial
  | node l s x r ihl ihr =>
      have hperm : (node l s x r).slots.Perm _ := slots_join .left l s x r
      obtain ⟨hs, hl, hr⟩ := h
      refine ⟨?_, ihl hl ?_, ihr hr ?_⟩
      · rw [hsame s (hperm.mem_iff.mpr (by simp)), hs]
      · intro u hu
        exact hsame u (hperm.mem_iff.mpr (by simp [hu]))
      · intro u hu
        exact hsame u (hperm.mem_iff.mpr (by simp [hu]))

theorem Stored.put {t : Tree α} {parent : Link} {sh : Shape α} (h : sh.Stored t parent)
    {s : Slot} (hs : s ∉ sh.slots) (n : Node α) : sh.Stored (t.put s n) parent := by
  apply h.congr
  intro u hu
  exact Tree.nodeAt?_put_ne (ne_of_mem_of_not_mem hu hs) n

theorem Stored.live {t : Tree α} {parent : Link} {sh : Shape α} (h : sh.Stored t parent)
    {s : Slot} (hs : s ∈ sh.slots) : ∃ n, t.nodeAt? s = some n := by
  induction sh generalizing parent with
  | nil => simp at hs
  | node l u x r ihl ihr =>
      have hperm : (node l u x r).slots.Perm _ := slots_join .left l u x r
      obtain ⟨hu, hl, hr⟩ := h
      rw [hperm.mem_iff, List.mem_cons, List.mem_append] at hs
      rcases hs with rfl | hs | hs
      · exact ⟨_, hu⟩
      · exact ihl hl hs
      · exact ihr hr hs

private theorem Stored.unique {t : Tree α} {p p' : Link} {sh sh' : Shape α} (h : sh.Stored t p)
    (h' : sh'.Stored t p') (hlink : sh.link = sh'.link) : sh = sh' := by
  induction sh generalizing p p' sh' with
  | nil => exact (link_eq_none.mp hlink.symm).symm
  | node l s x r ihl ihr =>
      cases sh' with
      | nil => simp [link] at hlink
      | node l' s' x' r' =>
          obtain rfl : s = s' := Option.some.inj hlink
          obtain ⟨hs, hl, hr⟩ := h
          obtain ⟨hs', hl', hr'⟩ := h'
          rw [hs] at hs'
          simp only [Option.some.injEq, Node.mk.injEq] at hs'
          obtain ⟨rfl, hleft, hright, -⟩ := hs'
          rw [ihl hl hl' hleft, ihr hr hr' hright]

end Shape

namespace Path

variable {α : Type}

/-- Every node of the path is in its slot, above a subtree with root link `l`. -/
def Stored (t : Tree α) : Link → Path α → Prop
  | l, top => t.root = l
  | l, step side s x tilt sibling up =>
      t.nodeAt? s = some (Node.facing side x l sibling.link up.link tilt) ∧
        sibling.Stored t (some s) ∧ up.Stored t (some s)

theorem Stored.congr {t t' : Tree α} {l : Link} {path : Path α} (hp : path.Stored t l)
    (hroot : t'.root = t.root) (hsame : ∀ s ∈ path.slots, t'.nodeAt? s = t.nodeAt? s) :
    path.Stored t' l := by
  induction path generalizing l with
  | top => exact hroot.trans hp
  | step side s x tilt sibling up ih =>
      obtain ⟨hs, hsib, hup⟩ := hp
      refine ⟨?_, hsib.congr ?_, ih hup ?_⟩
      · rw [hsame s (by simp [slots]), hs]
      · intro u hu
        exact hsame u (by simp [slots, hu])
      · intro u hu
        exact hsame u (by simp [slots, hu])

theorem Stored.put {t : Tree α} {l : Link} {path : Path α} (hp : path.Stored t l)
    {s : Slot} (hs : s ∉ path.slots) (n : Node α) : path.Stored (t.put s n) l := by
  apply hp.congr (Tree.put_root t s n)
  intro u hu
  exact Tree.nodeAt?_put_ne (ne_of_mem_of_not_mem hu hs) n

/-- A whole shape is stored when a subtree and the path to it are. -/
theorem stored_plug (t : Tree α) {path : Path α} {sh : Shape α} (hc : path.Counts sh.height) :
    ((path.plug sh).Stored t none ∧ t.root = (path.plug sh).link) ↔
      sh.Stored t path.link ∧ path.Stored t sh.link := by
  induction path generalizing sh with
  | top => simp [plug, link, Stored]
  | step side s x tilt sibling up ih =>
      obtain ⟨rfl, hup⟩ := hc
      rw [plug, ih (by rwa [Shape.height_join]), Shape.stored_join, Shape.link_join]
      simp only [link, Stored]
      tauto

end Path

namespace Tree

variable {α : Type}

/-- The tree ends in `sh` at `path`. -/
structure Split (t : Tree α) (path : Path α) (sh : Shape α) : Prop where
  stored : sh.Stored t path.link
  above : path.Stored t sh.link
  nodup : (sh.slots ++ path.slots).Nodup

/-- The tree holds the shape, in all of its live slots. -/
structure HasShape (t : Tree α) (sh : Shape α) : Prop where
  root_eq : t.root = sh.link
  stored : sh.Stored t none
  nodup : sh.slots.Nodup
  live_iff : ∀ s, t.nodes.contains (some s) = true ↔ s ∈ sh.slots
  balanced : sh.Balanced
  sound : t.nodes.Sound

namespace Split

theorem nodup_path {t : Tree α} {path : Path α} {sh : Shape α} (h : t.Split path sh) :
    path.slots.Nodup := (List.nodup_append.mp h.nodup).2.1

theorem not_mem_path {t : Tree α} {path : Path α} {sh : Shape α} (h : t.Split path sh)
    {s : Slot} (hs : s ∈ sh.slots) : s ∉ path.slots := by
  intro hm
  exact (List.nodup_append.mp h.nodup).2.2 s hs s hm rfl

theorem step_iff {t : Tree α} {side : Side} {s : Slot} {x : α} {sibling : Shape α} {up : Path α}
    {sh : Shape α} :
    t.Split (.step side s x (sh.height - sibling.height) sibling up) sh ↔
      t.Split up (.join side sh s x sibling) := by
  have hperm : (sh.slots ++ (s :: (sibling.slots ++ up.slots))).Perm
      ((Shape.join side sh s x sibling).slots ++ up.slots) := by
    refine List.perm_middle.trans ?_
    refine List.Perm.trans ?_ ((Shape.slots_join side sh s x sibling).append_right up.slots).symm
    simp only [List.cons_append, List.append_assoc]
    exact List.Perm.refl _
  constructor
  · rintro ⟨hsh, ⟨hs, hsib, hup⟩, hnd⟩
    exact ⟨(Shape.stored_join ..).mpr ⟨hs, hsh, hsib⟩, by rwa [Shape.link_join],
      hperm.nodup_iff.mp hnd⟩
  · rintro ⟨hsh, hup, hnd⟩
    rw [Shape.stored_join] at hsh
    rw [Shape.link_join] at hup
    exact ⟨hsh.2.1, ⟨hsh.1, hsh.2.2, hup⟩, hperm.nodup_iff.mpr hnd⟩

end Split

theorem HasShape.split {t : Tree α} {path : Path α} {sh : Shape α}
    (h : t.HasShape (path.plug sh)) (hc : path.Counts sh.height) : t.Split path sh where
  stored := ((Path.stored_plug t hc).mp ⟨h.stored, h.root_eq⟩).1
  above := ((Path.stored_plug t hc).mp ⟨h.stored, h.root_eq⟩).2
  nodup := (Path.slots_plug path sh).nodup_iff.mp h.nodup

theorem HasShape.unique {t : Tree α} {sh sh' : Shape α} (h : t.HasShape sh) (h' : t.HasShape sh') :
    sh = sh' := h.stored.unique h'.stored (h.root_eq.symm.trans h'.root_eq)

theorem HasShape.length_slots {t : Tree α} {sh : Shape α} (h : t.HasShape sh) :
    sh.slots.length = t.size := Arena.length_eq_size h.sound h.nodup h.live_iff

end Tree
end TableIndex
