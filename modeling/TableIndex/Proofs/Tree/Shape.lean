import Mathlib.Tactic
import TableIndex.Tree.Basic

/-!
# Shapes of trees

A shape is a binary tree of slots with the rows that they hold. A path leads from a subtree up to
the root and keeps, for each node on the way, the subtree on its other side. Both are read toward
either side, so that each pair of mirror images is one statement.
-/

namespace TableIndex

namespace Side

@[simp] theorem other_other (side : Side) : side.other.other = side := by cases side <;> rfl

theorem weight_mul_eq_zero {side : Side} {b : Int} : side.weight * b = 0 ↔ b = 0 := by
  cases side <;> simp [weight]

theorem weight_mul_eq_one {side : Side} {b : Int} :
    (side.weight * b = 1 ∨ side.weight * b = -1) ↔ (b = 1 ∨ b = -1) := by
  cases side <;> simp only [weight] <;> omega

@[simp] theorem other_ne (side : Side) : side.other ≠ side := by cases side <;> decide

@[simp] theorem ne_other (side : Side) : side ≠ side.other := by cases side <;> decide

theorem eq_or_eq_other (a b : Side) : a = b ∨ a = b.other := by
  cases a <;> cases b <;> decide

@[simp] theorem weight_mul_weight (side : Side) : side.weight * side.weight = 1 := by
  cases side <;> rfl

end Side

inductive Shape (α : Type)
  | nil
  | node (left : Shape α) (slot : Slot) (row : α) (right : Shape α)

namespace Shape

variable {α : Type}

/-- The link to the root of the shape. -/
def link : Shape α → Link
  | nil => none
  | node _ s _ _ => some s

def height : Shape α → Nat
  | nil => 0
  | node l _ _ r => 1 + max l.height r.height

/-- How much taller the left subtree is than the right one. -/
def tilt : Shape α → Int
  | nil => 0
  | node l _ _ r => l.height - r.height

/-- Everywhere the heights of the two subtrees differ by at most one. -/
def Balanced : Shape α → Prop
  | nil => True
  | node l _ _ r =>
      (l.height ≤ r.height + 1 ∧ r.height ≤ l.height + 1) ∧ l.Balanced ∧ r.Balanced

/-- The node whose subtree on `side` is `near` and whose other subtree is `far`. -/
def join (side : Side) (near : Shape α) (s : Slot) (x : α) (far : Shape α) : Shape α :=
  match side with
  | .left => node near s x far
  | .right => node far s x near

/-- The nodes in order, the ones toward `side` last. -/
def listed (side : Side) : Shape α → List (Slot × α)
  | nil => []
  | node l s x r =>
      match side with
      | .left => r.listed .left ++ (s, x) :: l.listed .left
      | .right => l.listed .right ++ (s, x) :: r.listed .right

/-- The slots in order. -/
def slots (sh : Shape α) : List Slot := (sh.listed .right).map Prod.fst

theorem join_other (side : Side) (p : Shape α) (s : Slot) (x : α) (q : Shape α) :
    join side.other p s x q = join side q s x p := by cases side <;> rfl

theorem eq_nil_or_join (side : Side) (sh : Shape α) :
    sh = nil ∨ ∃ p s x q, sh = join side p s x q := by
  cases sh with
  | nil => exact .inl rfl
  | node l s x r =>
      right
      cases side
      · exact ⟨l, s, x, r, rfl⟩
      · exact ⟨r, s, x, l, rfl⟩

@[simp] theorem link_nil : (nil : Shape α).link = none := rfl

@[simp] theorem link_join (side : Side) (p : Shape α) (s : Slot) (x : α) (q : Shape α) :
    (join side p s x q).link = some s := by cases side <;> rfl

@[simp] theorem height_nil : (nil : Shape α).height = 0 := rfl

@[simp] theorem height_join (side : Side) (p : Shape α) (s : Slot) (x : α) (q : Shape α) :
    (join side p s x q).height = 1 + max p.height q.height := by
  cases side
  · rfl
  · simp [join, height, max_comm]

theorem tilt_join (side : Side) (p : Shape α) (s : Slot) (x : α) (q : Shape α) :
    (join side p s x q).tilt = side.weight * (p.height - q.height) := by
  cases side <;> simp [join, tilt, Side.weight]

theorem tilt_join_eq_zero {side : Side} {p : Shape α} {s : Slot} {x : α} {q : Shape α} :
    (join side p s x q).tilt = 0 ↔ p.height = q.height := by
  rw [tilt_join, Side.weight_mul_eq_zero]
  omega

theorem height_eq_zero {sh : Shape α} : sh.height = 0 ↔ sh = nil := by
  cases sh with
  | nil => simp
  | node l s x r => simp [height]

theorem link_eq_none {sh : Shape α} : sh.link = none ↔ sh = nil := by
  cases sh <;> simp [link]

theorem balanced_join (side : Side) (p : Shape α) (s : Slot) (x : α) (q : Shape α) :
    (join side p s x q).Balanced ↔
      (p.height ≤ q.height + 1 ∧ q.height ≤ p.height + 1) ∧ p.Balanced ∧ q.Balanced := by
  cases side
  · rfl
  · simp only [join, Balanced]
    tauto

@[simp] theorem listed_nil (side : Side) : (nil : Shape α).listed side = [] := rfl

theorem listed_join (side : Side) (p : Shape α) (s : Slot) (x : α) (q : Shape α) :
    (join side p s x q).listed side = q.listed side ++ (s, x) :: p.listed side := by
  cases side <;> rfl

theorem listed_join_other (side : Side) (p : Shape α) (s : Slot) (x : α) (q : Shape α) :
    (join side p s x q).listed side.other =
      p.listed side.other ++ (s, x) :: q.listed side.other := by
  cases side <;> rfl

theorem listed_other (side : Side) (sh : Shape α) :
    sh.listed side.other = (sh.listed side).reverse := by
  induction sh with
  | nil => rfl
  | node l s x r ihl ihr =>
      cases side
      · simp only [Side.other] at ihl ihr
        simp [listed, Side.other, ihl, ihr]
      · simp only [Side.other] at ihl ihr
        simp [listed, Side.other, ihl, ihr]

theorem listed_perm (side : Side) (sh : Shape α) : (sh.listed side).Perm (sh.listed .right) := by
  rcases Side.eq_or_eq_other side .right with rfl | rfl
  · exact List.Perm.refl _
  · rw [listed_other]
    exact List.reverse_perm _

theorem listed_congr {sh sh' : Shape α} (side : Side) (h : sh.listed side = sh'.listed side)
    (other : Side) : sh.listed other = sh'.listed other := by
  rcases Side.eq_or_eq_other other side with rfl | rfl
  · exact h
  · rw [listed_other, listed_other, h]

theorem length_listed (side : Side) (sh : Shape α) :
    (sh.listed side).length = sh.slots.length := by
  rw [slots, List.length_map, (listed_perm side sh).length_eq]

@[simp] theorem slots_nil : (nil : Shape α).slots = [] := rfl

theorem slots_join (side : Side) (p : Shape α) (s : Slot) (x : α) (q : Shape α) :
    (join side p s x q).slots.Perm (s :: (p.slots ++ q.slots)) := by
  cases side
  · simp only [slots, join, listed, List.map_append, List.map_cons]
    exact List.perm_middle
  · simp only [slots, join, listed, List.map_append, List.map_cons]
    exact List.perm_middle.trans (List.Perm.cons _ List.perm_append_comm)

theorem slots_perm {sh sh' : Shape α} (side : Side) (h : sh.listed side = sh'.listed side) :
    sh.slots = sh'.slots := by
  rw [slots, slots, listed_congr side h]

theorem exists_link {sh : Shape α} (h : 0 < sh.height) : ∃ s, sh.link = some s := by
  cases sh with
  | nil => simp at h
  | node l s x r => exact ⟨s, rfl⟩

theorem link_mem {sh : Shape α} {s : Slot} (h : sh.link = some s) : s ∈ sh.slots := by
  cases sh with
  | nil => simp at h
  | node l u x r =>
      simp only [link, Option.some.injEq] at h
      subst u
      simp [slots, listed]

theorem mem_slots (side : Side) {sh : Shape α} {s : Slot} :
    s ∈ sh.slots ↔ ∃ x, (s, x) ∈ sh.listed side := by
  rw [slots, List.mem_map]
  constructor
  · rintro ⟨⟨u, x⟩, h, rfl⟩
    exact ⟨x, (listed_perm side sh).mem_iff.mpr h⟩
  · rintro ⟨x, h⟩
    exact ⟨(s, x), (listed_perm side sh).mem_iff.mp h, rfl⟩

theorem height_le_length (sh : Shape α) : sh.height ≤ sh.slots.length := by
  induction sh with
  | nil => simp
  | node l s x r ihl ihr =>
      have := (slots_join .left l s x r).length_eq
      simp only [join, List.length_cons, List.length_append] at this
      rw [height, this]
      omega

end Shape

/-- The way from a subtree up to the root. -/
inductive Path (α : Type)
  | top
  /-- The subtree hangs on `side` of the node; `sibling` is the node's other subtree, and `tilt` is
  by how much the node counts the subtree taller than it. -/
  | step (side : Side) (slot : Slot) (row : α) (tilt : Int) (sibling : Shape α) (up : Path α)

namespace Path

variable {α : Type}

/-- The parent of the subtree. -/
def link : Path α → Link
  | top => none
  | step _ s _ _ _ _ => some s

/-- The side on which the subtree hangs; right for the whole tree. -/
def side : Path α → Side
  | top => .right
  | step side _ _ _ _ _ => side

/-- The whole tree when the path ends in `sh`. -/
def plug : Path α → Shape α → Shape α
  | top, sh => sh
  | step side s x _ sibling up, sh => up.plug (.join side sh s x sibling)

/-- The path followed by another one. -/
def append : Path α → Path α → Path α
  | top, path => path
  | step side s x tilt sibling up, path => step side s x tilt sibling (up.append path)

/-- The nodes that lie beyond the subtree on a side, the nearest one first. -/
def beyond (side : Side) : Path α → List (Slot × α)
  | top => []
  | step d s x _ sibling up =>
      if d = side then up.beyond side else (s, x) :: (sibling.listed side ++ up.beyond side)

def slots : Path α → List Slot
  | top => []
  | step _ s _ _ sibling up => s :: (sibling.slots ++ up.slots)

/-- The path keeps a tree balanced that ends in a balanced subtree of height `h`. -/
def Balanced : Nat → Path α → Prop
  | _, top => True
  | h, step _ _ _ _ sibling up =>
      (h ≤ sibling.height + 1 ∧ sibling.height ≤ h + 1) ∧ sibling.Balanced ∧
        up.Balanced (1 + max h sibling.height)

/-- The nodes of the path count a subtree of height `h` at its end. -/
def Counts : Nat → Path α → Prop
  | _, top => True
  | h, step _ _ _ tilt sibling up =>
      tilt = h - sibling.height ∧ up.Counts (1 + max h sibling.height)

def length : Path α → Nat
  | top => 0
  | step _ _ _ _ _ up => up.length + 1

@[simp] theorem link_top : (top : Path α).link = none := rfl

@[simp] theorem link_step (side : Side) (s : Slot) (x : α) (tilt : Int) (sibling : Shape α)
    (up : Path α) : (step side s x tilt sibling up).link = some s := rfl

@[simp] theorem plug_top (sh : Shape α) : top.plug sh = sh := rfl

@[simp] theorem plug_append (path up : Path α) (sh : Shape α) :
    (path.append up).plug sh = up.plug (path.plug sh) := by
  induction path generalizing sh with
  | top => rfl
  | step side s x tilt sibling rest ih => exact ih _

theorem beyond_append (side : Side) (path up : Path α) :
    (path.append up).beyond side = path.beyond side ++ up.beyond side := by
  induction path with
  | top => rfl
  | step d s x tilt sibling rest ih =>
      by_cases hd : d = side
      · simp [append, beyond, hd, ih]
      · simp [append, beyond, hd, ih]

/-- What lies before the subtree, the subtree, and what lies after it. -/
theorem listed_plug (side : Side) (path : Path α) (sh : Shape α) :
    (path.plug sh).listed side =
      (path.beyond side.other).reverse ++ (sh.listed side ++ path.beyond side) := by
  induction path generalizing sh with
  | top => simp [plug, beyond]
  | step d s x tilt sibling up ih =>
      rw [plug, ih]
      rcases Side.eq_or_eq_other d side with rfl | rfl
      · simp [Shape.listed_join, beyond, Shape.listed_other]
      · rw [Shape.join_other, Shape.listed_join]
        simp [beyond]

theorem slots_plug (path : Path α) (sh : Shape α) :
    (path.plug sh).slots.Perm (sh.slots ++ path.slots) := by
  induction path generalizing sh with
  | top => simp [plug, slots]
  | step side s x tilt sibling up ih =>
      refine (ih _).trans ?_
      refine ((Shape.slots_join side sh s x sibling).append_right _).trans ?_
      simp only [slots, List.cons_append, List.append_assoc]
      exact List.perm_middle.symm

theorem balanced_plug (path : Path α) (sh : Shape α) :
    (path.plug sh).Balanced ↔ sh.Balanced ∧ path.Balanced sh.height := by
  induction path generalizing sh with
  | top => simp [plug, Balanced]
  | step side s x tilt sibling up ih =>
      rw [plug, ih, Shape.balanced_join, Shape.height_join, Balanced]
      tauto

theorem counts_append {path up : Path α} {sh : Shape α} :
    (path.append up).Counts sh.height ↔
      path.Counts sh.height ∧ up.Counts (path.plug sh).height := by
  induction path generalizing sh with
  | top => simp [append, Counts]
  | step side s x tilt sibling rest ih =>
      have := @ih (.join side sh s x sibling)
      rw [Shape.height_join] at this
      simp only [append, Counts, plug, this]
      tauto

theorem length_le (path : Path α) : path.length ≤ path.slots.length := by
  induction path with
  | top => simp [length]
  | step side s x tilt sibling up ih =>
      simp only [length, slots, List.length_cons, List.length_append]
      omega

end Path

theorem Shape.exists_path {α : Type} (sh : Shape α) {s : Slot} (h : s ∈ sh.slots) :
    ∃ (path : Path α) (l : Shape α) (x : α) (r : Shape α),
      sh = path.plug (.node l s x r) ∧ path.Counts (Shape.node l s x r).height := by
  induction sh with
  | nil => simp at h
  | node l u x r ihl ihr =>
      have hperm := slots_join .left l u x r
      rw [join] at hperm
      rw [hperm.mem_iff, List.mem_cons, List.mem_append] at h
      rcases h with rfl | h | h
      · exact ⟨.top, l, x, r, rfl, trivial⟩
      · obtain ⟨path, l', y, r', hl, hc⟩ := ihl h
        refine ⟨path.append (.step .left u x (l.height - r.height) r .top), l', y, r', ?_, ?_⟩
        · rw [Path.plug_append, ← hl]
          rfl
        · exact Path.counts_append.mpr ⟨hc, by rw [← hl], trivial⟩
      · obtain ⟨path, l', y, r', hr, hc⟩ := ihr h
        refine ⟨path.append (.step .right u x (r.height - l.height) l .top), l', y, r', ?_, ?_⟩
        · rw [Path.plug_append, ← hr]
          rfl
        · exact Path.counts_append.mpr ⟨hc, by rw [← hr], trivial⟩

/-- Where a node stands in the listing toward a side, in terms of its subtree and its path. -/
theorem Shape.exists_path_of_listed {α : Type} {sh : Shape α} {side : Side} {s : Slot} {x : α}
    {before after : List (Slot × α)} (hnd : sh.slots.Nodup)
    (hlist : sh.listed side = before ++ (s, x) :: after) :
    ∃ (path : Path α) (p q : Shape α), sh = path.plug (.join side p s x q) ∧
      path.Counts (Shape.join side p s x q).height ∧
      before = (path.beyond side.other).reverse ++ q.listed side ∧
      after = p.listed side ++ path.beyond side := by
  have hmem : s ∈ sh.slots := (Shape.mem_slots side).mpr ⟨x, by rw [hlist]; simp⟩
  obtain ⟨path, l, y, r, rfl, hc⟩ := sh.exists_path hmem
  obtain ⟨p, q, hnode⟩ : ∃ p q, Shape.node l s y r = .join side p s y q := by
    cases side
    · exact ⟨l, r, rfl⟩
    · exact ⟨r, l, rfl⟩
  rw [hnode] at hnd hc hlist
  have hkeys : ((path.plug (.join side p s y q)).listed side).map Prod.fst |>.Nodup :=
    ((Shape.listed_perm side _).map Prod.fst).nodup_iff.mpr hnd
  have hlist' := hlist
  rw [Path.listed_plug, Shape.listed_join, List.append_assoc, ← List.append_assoc,
    List.cons_append] at hlist'
  have hxy : y = x := by
    have hx : (s, x) ∈ (path.plug (.join side p s y q)).listed side := by rw [hlist]; simp
    have hy : (s, y) ∈ (path.plug (.join side p s y q)).listed side := by
      rw [hlist, ← hlist']; simp
    exact congrArg Prod.snd (List.inj_on_of_nodup_map hkeys hy hx rfl)
  subst y
  have hnot : (s, x) ∉ before ∧ (s, x) ∉ after := by
    rw [hlist, List.map_append, List.map_cons] at hkeys
    have hnd := List.nodup_middle.mp hkeys
    rw [List.nodup_cons, List.mem_append, not_or] at hnd
    exact ⟨fun hm => hnd.1.1 (List.mem_map_of_mem hm), fun hm => hnd.1.2 (List.mem_map_of_mem hm)⟩
  have hinj := (List.append_cons_inj_of_notMem hnot.1 hnot.2).mp hlist'.symm
  exact ⟨path, p, q, by rw [hnode], hc, hinj.1, hinj.2.2⟩

end TableIndex
