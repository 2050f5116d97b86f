import TableIndex.Proofs.Slot.Column
import TableIndex.Slot.Recency

/-!
# What stamps tell

A touch of a slot that has a stamp advances the clock and changes this stamp alone, and a reset
changes nothing but the stamp. Growth changes none, and no operation gives up space. Where the clock
was when it began to count makes no difference to any of them.
-/

namespace TableIndex

namespace Slot

variable {α β : Type}

private theorem swap_map (f : α → β) (cells : Array α) (l : Link) (a : α) :
    swap (cells.map f) l (f a) = (swap cells l a).map (Prod.map f (Array.map f)) := by
  cases l with
  | none => rfl
  | some s =>
      simp only [swap, Array.getElem?_map, Array.size_map]
      cases cells[s]? with
      | none => rfl
      | some old => simp [Except.map, Array.map_setIfInBounds]

private theorem extend_map (f : α → β) (cells : Array α) (empty : α) (capacity : Nat)
    (granted : Bool) :
    extend (cells.map f) (f empty) capacity granted =
      (extend cells empty capacity granted).map (Array.map f) := by
  simp only [extend, Array.size_map]
  split
  · rfl
  · next hle =>
      have hlt := Nat.le_of_not_le hle
      split
      · rw [widen_eq (by rwa [Array.size_map]), widen_eq hlt]
        simp [Except.map]
      · rfl

end Slot

namespace Recency

/-- The stamp of a slot, 0 beyond the cells. -/
def mark (r : Recency) (s : Slot) : Nat := r.stamps[s]?.getD 0

theorem stamp_eq {r : Recency} {s : Slot} (h : s < r.capacity) :
    r.stamp (some s) = .ok (r.mark s) :=
  Slot.fetch_of_lt h 0

theorem touch_eq {r : Recency} {s : Slot} (h : s < r.capacity) :
    ∃ r', r.touch (some s) = .ok (r.clock + 1, r') ∧ r'.capacity = r.capacity ∧
      r'.clock = r.clock + 1 ∧ ∀ u, r'.mark u = if u = s then r.clock + 1 else r.mark u := by
  refine ⟨⟨r.stamps.setIfInBounds s (r.clock + 1), r.clock + 1⟩, ?_, by simp [capacity], rfl,
    Slot.getD_setIfInBounds h _ 0⟩
  simp only [touch, Slot.swap_of_lt h _ 0, ok_bind, pure_eq_ok]

theorem reset_eq {r : Recency} {s : Slot} (h : s < r.capacity) :
    ∃ r', r.reset (some s) = .ok r' ∧ r'.capacity = r.capacity ∧ r'.clock = r.clock ∧
      ∀ u, r'.mark u = if u = s then 0 else r.mark u := by
  refine ⟨{ r with stamps := r.stamps.setIfInBounds s 0 }, ?_, by simp [capacity], rfl,
    Slot.getD_setIfInBounds h _ 0⟩
  simp only [reset, Slot.swap_of_lt h _ 0, ok_bind, pure_eq_ok]

theorem grow_cases (r : Recency) (slots : Nat) (grants : Allocator) :
    (r.grow slots grants = .error (.full slots r.capacity) ∧
        grants ⟨.counters, slots, 8⟩ = false ∧ r.capacity < slots) ∨
      ∃ r', r.grow slots grants = .ok r' ∧ r'.capacity = max r.capacity slots ∧
        r'.clock = r.clock ∧ (∀ u, r'.mark u = r.mark u) ∧
        (r.capacity < slots → grants ⟨.counters, slots, 8⟩ = true) := by
  rcases Slot.extend_cases r.stamps 0 slots (grants ⟨.counters, slots, 8⟩) with
    ⟨hrun, hr, hlt⟩ | ⟨stamps, hrun, hsize, hget, hgranted⟩
  · exact .inl ⟨by simp only [grow, hrun, error_bind]; rfl, hr, hlt⟩
  · exact .inr ⟨{ r with stamps }, by simp only [grow, hrun, ok_bind, pure_eq_ok], hsize, rfl, hget,
      hgranted⟩

theorem ofCapacity_mark (capacity : Nat) (s : Slot) : (ofCapacity capacity).mark s = 0 := by
  rw [mark, ofCapacity, Array.getElem?_replicate]
  split <;> rfl

theorem clear_capacity (r : Recency) : r.clear.capacity = r.capacity := by
  simp [clear, capacity]

theorem clear_mark (r : Recency) (s : Slot) : r.clear.mark s = 0 := by
  rw [mark, clear, Array.getElem?_map]
  cases r.stamps[s]? <;> rfl

/-- The stamp of a clock that is ahead; a slot without touches has none to show. -/
def laterStamp (ticks stamp : Nat) : Nat := if stamp = 0 then 0 else stamp + ticks

/-- The clock is ahead, and so are the stamps that it gave. -/
def later (ticks : Nat) (r : Recency) : Recency :=
  ⟨r.stamps.map (laterStamp ticks), r.clock + ticks⟩

theorem laterStamp_lt (ticks : Nat) {n k : Nat} :
    laterStamp ticks n < laterStamp ticks k ↔ n < k := by
  unfold laterStamp
  split <;> split <;> omega

theorem laterStamp_zero : laterStamp 0 = id := by
  funext stamp
  unfold laterStamp
  split
  · next hstamp => exact hstamp.symm
  · rfl

theorem later_zero : later 0 = id := by
  funext r
  rw [later, laterStamp_zero, Array.map_id_fun]
  rfl

variable (r : Recency) (ticks : Nat) (l : Link)

theorem mark_later (s : Slot) : (r.later ticks).mark s = laterStamp ticks (r.mark s) := by
  simp only [mark, later, Array.getElem?_map]
  cases r.stamps[s]? <;> rfl

theorem touch_later :
    (r.later ticks).touch l = (r.touch l).map (Prod.map (· + ticks) (later ticks)) := by
  have hstamp : laterStamp ticks (r.clock + 1) = r.clock + ticks + 1 := by
    rw [laterStamp, if_neg (Nat.succ_ne_zero _), Nat.add_right_comm]
  simp only [touch, later, ← hstamp, Slot.swap_map]
  cases Slot.swap r.stamps l (r.clock + 1) with
  | error e => rfl
  | ok swapped => simp [Except.map, later, hstamp, Nat.add_right_comm]

theorem reset_later : (r.later ticks).reset l = (r.reset l).map (later ticks) := by
  have hswap := Slot.swap_map (laterStamp ticks) r.stamps l 0
  rw [show laterStamp ticks 0 = 0 from rfl] at hswap
  simp only [reset, later, hswap]
  cases Slot.swap r.stamps l 0 <;> rfl

theorem grow_later (capacity : Nat) (grants : Allocator) :
    (r.later ticks).grow capacity grants = (r.grow capacity grants).map (later ticks) := by
  have hextend := Slot.extend_map (laterStamp ticks) r.stamps 0 capacity
    (grants ⟨.counters, capacity, 8⟩)
  rw [show laterStamp ticks 0 = 0 from rfl] at hextend
  simp only [grow, later, hextend]
  cases Slot.extend r.stamps 0 capacity (grants ⟨.counters, capacity, 8⟩) <;> rfl

theorem clear_later : (r.later ticks).clear = r.clear.later ticks := by
  simp [clear, later, Function.comp_def, laterStamp]

theorem clear_eq_later : r.clear = (ofCapacity r.capacity).later r.clock := by
  simp [clear, ofCapacity, later, capacity, laterStamp, Array.map_const']

end Recency
end TableIndex
