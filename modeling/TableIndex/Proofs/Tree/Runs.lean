import TableIndex.Proofs.Tree.Insertion
import TableIndex.Proofs.Tree.Removal

/-!
# Runs of tree operations

Every tree that insertions, removals and clearing can build, under any orders at all and from any
links at all, holds a balanced shape in exactly its live slots. In a guarded arena a walk that came
to a free slot would be a fault, so none ever does.
-/

namespace TableIndex.Tree

variable {α : Type}

inductive Step (α : Type)
  | insert (row : α) (order : List α → α → Ordering) (grants : Allocator := .addressable)
  | remove (l : Link)
  | clear

section

variable [Inhabited α]

/-- The tree after one operation. A full tree that refuses a row, because it may not or cannot grow,
stays as it is. -/
def step (t : Tree α) : Step α → Checked (Tree α)
  | .insert row order grants => Prod.snd <$> t.insertBy row order grants
  | .remove l => Prod.snd <$> t.remove l
  | .clear => .ok t.clear

def run (t : Tree α) (steps : List (Step α)) : Checked (Tree α) := steps.foldlM step t

theorem ofCapacity_hasShape (capacity : Nat) (guarded : Bool) :
    (ofCapacity capacity guarded : Tree α).HasShape .nil where
  root_eq := rfl
  stored := trivial
  nodup := List.nodup_nil
  live_iff := by
    intro s
    simp [ofCapacity, Arena.contains, Arena.ofCapacity_get?]
  balanced := trivial
  sound := Arena.ofCapacity_sound _ guarded

theorem clear_hasShape {t : Tree α} {sh : Shape α} (h : t.HasShape sh) :
    t.clear.HasShape .nil where
  root_eq := rfl
  stored := trivial
  nodup := List.nodup_nil
  live_iff := by
    intro s
    simp [clear, Arena.contains, Arena.clear_get? h.sound]
  balanced := trivial
  sound := Arena.clear_sound h.sound

private theorem step_hasShape {t : Tree α} {sh : Shape α} (h : t.HasShape sh) (st : Step α) :
    ∃ t' sh', t.step st = .ok t' ∧ t'.HasShape sh' := by
  cases st with
  | insert row order grants =>
      obtain ⟨gap, path, hgap, hat, rfl, hc⟩ := h.gapBy_at order
      rcases attach_at h hc hat row grants with ⟨s, t', sh', hrun, h', -⟩ | ⟨_, _, hrun, -⟩
      · exact ⟨t', sh', by rw [step, insertBy, hgap, ok_bind, hrun]; rfl, h'⟩
      · exact ⟨t, _, by rw [step, insertBy, hgap, ok_bind, hrun]; rfl, h⟩
  | remove l =>
      cases hlive : t.nodes.contains l with
      | false => exact ⟨t, sh, by rw [step, remove_free hlive]; rfl, h⟩
      | true =>
          cases l with
          | none => simp at hlive
          | some s =>
              obtain ⟨x, hx⟩ := (Shape.mem_slots .right).mp ((h.live_iff s).mp hlive)
              obtain ⟨before, after, hlist⟩ := List.append_of_mem hx
              obtain ⟨node, t', sh', -, hrun, h', -⟩ := remove_listed h hlist
              exact ⟨t', sh', by rw [step, hrun]; rfl, h'⟩
  | clear => exact ⟨t.clear, .nil, rfl, clear_hasShape h⟩

theorem run_hasShape {t : Tree α} {sh : Shape α} (h : t.HasShape sh) (steps : List (Step α)) :
    ∃ t' sh', t.run steps = .ok t' ∧ t'.HasShape sh' := by
  induction steps generalizing t sh with
  | nil => exact ⟨t, sh, rfl, h⟩
  | cons st steps ih =>
      obtain ⟨t₁, sh₁, hstep, h₁⟩ := step_hasShape h st
      obtain ⟨t₂, sh₂, hrun, h₂⟩ := ih h₁
      refine ⟨t₂, sh₂, ?_, h₂⟩
      rw [run, List.foldlM_cons, hstep, ok_bind]
      exact hrun

end

namespace HasShape

variable {t : Tree α} {sh : Shape α}

private theorem root_eq_none_iff (h : t.HasShape sh) : t.root = none ↔ t.size = 0 := by
  rw [h.root_eq, Shape.link_eq_none, ← h.length_slots, List.length_eq_zero_iff]
  constructor
  · rintro rfl
    rfl
  · intro hnil
    by_contra hne
    obtain ⟨s, hs⟩ := Option.ne_none_iff_exists'.mp fun e => hne (Shape.link_eq_none.mp e)
    have hm := Shape.link_mem hs
    simp [hnil] at hm

private theorem neighbor_live (h : t.HasShape sh) {s : Slot} (hs : t.nodes.contains (some s) = true)
    (side : Side) :
    ∃ l, t.neighbor side (some s) = .ok l ∧ ∀ u, l = some u → t.nodes.contains (some u) = true := by
  obtain ⟨x, hx⟩ := (Shape.mem_slots side).mp ((h.live_iff s).mp hs)
  obtain ⟨before, after, hlist⟩ := List.append_of_mem hx
  refine ⟨_, (neighbor_listed h hlist).2, ?_⟩
  intro u hu
  obtain ⟨⟨u, y⟩, hhead, rfl⟩ := Option.map_eq_some_iff.mp hu
  rw [h.live_iff, Shape.mem_slots side]
  exact ⟨y, by rw [hlist]; simp [List.mem_of_mem_head? hhead]⟩

end HasShape

/-- Every run meets no fault and ends in a tree that holds a balanced shape; it has a root unless it
is empty, and both neighbours of a live node are found, again without a fault. -/
theorem run_balanced [Inhabited α] (capacity : Nat) (guarded : Bool) (steps : List (Step α)) :
    ∃ (t : Tree α) (sh : Shape α), (ofCapacity capacity guarded).run steps = .ok t ∧
      t.HasShape sh ∧ (t.root = none ↔ t.size = 0) ∧
      ∀ s, t.nodes.contains (some s) = true →
        (∃ l, t.next (some s) = .ok l ∧ ∀ u, l = some u → t.nodes.contains (some u) = true) ∧
        ∃ l, t.prev (some s) = .ok l ∧ ∀ u, l = some u → t.nodes.contains (some u) = true := by
  obtain ⟨t, sh, hrun, h⟩ := run_hasShape (ofCapacity_hasShape capacity guarded) steps
  exact ⟨t, sh, hrun, h, h.root_eq_none_iff,
    fun s hs => ⟨h.neighbor_live hs .right, h.neighbor_live hs .left⟩⟩

end TableIndex.Tree
