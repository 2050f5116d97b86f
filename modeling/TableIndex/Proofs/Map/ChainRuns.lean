import TableIndex.Proofs.Map.Resizing

/-!
# Runs of a hash table

Slots are added under any hash, and removed with any hash and any link, a free slot or one of
another chain included. However a table was changed before, its chains hold the live slots once
each, and every operation has the effect that is stated here on `hash?`, and no other.
-/

namespace TableIndex.Chains

/-- A change of a table. One that adds a slot may need space, and says what is granted. -/
inductive Op
  | insert (hash : UInt64) (grants : Allocator)
  | remove (hash : UInt64) (l : Link)
  | clear

def apply (c : Chains) : Op → Checked Chains
  | .insert hash grants => return (← c.insert hash grants).2
  | .remove hash l => return (← c.remove hash l).2
  | .clear => .ok c.clear

/-- The table after changes one after the other. -/
def run (c : Chains) : List Op → Checked Chains
  | [] => .ok c
  | op :: ops => do (← c.apply op).run ops

/-- What an insert may answer, and what becomes of the table. -/
inductive Inserts (c : Chains) (hash : UInt64) (grants : Allocator) :
    Except Error Slot × Chains → Prop
  | added {s : Slot} {c' : Chains} (fresh : c.hash? s = none)
      (added : ∀ u, c'.hash? u = if u = s then some hash else c.hash? u) :
      Inserts c hash grants (.ok s, c')
  | full (loaded : limitFor c.capacity c.loadFactor ≤ c.size)
      (tooLarge : c.maxCapacity < 2 * c.capacity) :
      Inserts c hash grants (.error (.full (2 * c.capacity) c.maxCapacity), c)
  | refused {r : Reservation} (loaded : limitFor c.capacity c.loadFactor ≤ c.size)
      (asked : r ∈ space (2 * c.capacity)) (refused : grants r = false) :
      Inserts c hash grants (.error (.full (2 * c.capacity) c.capacity), c)

/-- What a removal may answer, and what becomes of the table. -/
inductive Removes (c : Chains) (hash : UInt64) : Link → Bool × Chains → Prop
  | removed {s : Slot} {own : UInt64} {c' : Chains} (live : c.hash? s = some own)
      (inBucket : Hash.bucket own c.mask = Hash.bucket hash c.mask)
      (removed : ∀ u, c'.hash? u = if u = s then none else c.hash? u) :
      Removes c hash (some s) (true, c')
  | absent {l : Link}
      (outside : ∀ s own, l = some s → c.hash? s = some own →
        Hash.bucket own c.mask ≠ Hash.bucket hash c.mask) :
      Removes c hash l (false, c)

/-- What can be asked of a table, and what can be done to it next. -/
structure Indexed (c : Chains) : Prop where
  covers : ∃ chains, c.Covers chains
  chain : ∀ hash, ∃ slots, c.chain hash = .ok slots ∧ slots.Nodup ∧
    ∀ s, s ∈ slots ↔ c.hash? s = some hash
  resize : ∀ capacity grants, c.capacity < capacity → c.Admits capacity grants →
    ∃ c', c.resize capacity grants = .ok (.ok c') ∧ (∀ s, c'.hash? s = c.hash? s) ∧
      ∃ chains, c'.Covers chains
  insert : ∀ hash grants, ∃ answer, c.insert hash grants = .ok answer ∧
    c.Inserts hash grants answer
  /-- Space within the largest capacity can always be addressed. -/
  insert_addressable : ∀ hash, 2 * c.capacity ≤ c.maxCapacity →
    ∃ s c', c.insert hash .addressable = .ok (.ok s, c')
  remove : ∀ hash l, ∃ answer, c.remove hash l = .ok answer ∧ c.Removes hash l answer

/-- What holds of a table between its changes. -/
structure Valid (c : Chains) : Prop where
  sound : c.Sound
  limited : c.Limited
  capacity_le : c.capacity ≤ c.maxCapacity
  maxCapacity_le : c.maxCapacity ≤ maxSlots

namespace Valid

variable {c : Chains}

theorem insert_answer (h : c.Valid) (hash : UInt64) (grants : Allocator) :
    ∃ answer, c.insert hash grants = .ok answer ∧ c.Inserts hash grants answer ∧
      answer.2.Valid := by
  rcases insert_cases h.sound h.limited h.capacity_le h.maxCapacity_le hash grants with
    ⟨capacity, hrun, hnext, hr⟩ | ⟨s, c', hrun, hadds, -, hle, -, -⟩
  · obtain ⟨rfl, hloaded⟩ :=
      nextCapacity?_eq_some h.sound h.limited (h.capacity_le.trans h.maxCapacity_le) hnext
    refine ⟨_, hrun, ?_, h⟩
    by_cases hmax : c.maxCapacity < 2 * c.capacity
    · rw [ceiling, if_pos hmax]
      exact .full hloaded hmax
    · obtain ⟨r, hr, hrefused⟩ : ∃ r ∈ space (2 * c.capacity), grants r = false := by
        by_contra hall
        push Not at hall
        exact hr ⟨not_lt.mp hmax, fun r hr => by simpa using hall r hr⟩
      rw [ceiling, if_neg hmax]
      exact .refused hloaded hr hrefused
  · exact ⟨_, hrun, .added hadds.fresh hadds.hash, hadds.sound, hadds.limited,
      hadds.maxCapacity ▸ hle, hadds.maxCapacity ▸ h.maxCapacity_le⟩

theorem remove_answer (h : c.Valid) (hash : UInt64) (l : Link) :
    ∃ answer, c.remove hash l = .ok answer ∧ c.Removes hash l answer ∧ answer.2.Valid := by
  by_cases hl : ∃ s own, l = some s ∧ c.hash? s = some own ∧
      Hash.bucket own c.mask = Hash.bucket hash c.mask
  · obtain ⟨s, own, rfl, hlive, hbucket⟩ := hl
    obtain ⟨c', hrun, hdrops⟩ := remove_eq h.sound hlive hbucket
    exact ⟨_, hrun, .removed hlive hbucket hdrops.hash, hdrops.sound, hdrops.limited h.limited,
      by rw [hdrops.capacity, hdrops.maxCapacity]; exact h.capacity_le,
      hdrops.maxCapacity ▸ h.maxCapacity_le⟩
  · have houtside : ∀ s own, l = some s → c.hash? s = some own →
        Hash.bucket own c.mask ≠ Hash.bucket hash c.mask :=
      fun s own hs hlive hbucket => hl ⟨s, own, hs, hlive, hbucket⟩
    exact ⟨_, remove_absent h.sound houtside, .absent houtside, h⟩

private theorem clear (h : c.Valid) : c.clear.Valid := by
  have hcap : c.clear.capacity = c.capacity := by simp [Chains.clear, capacity]
  refine ⟨(clear_sound h.sound).1, ?_, hcap ▸ h.capacity_le, h.maxCapacity_le⟩
  rw [Limited, hcap]
  exact h.limited

theorem apply_valid (h : c.Valid) (op : Op) : ∃ c', c.apply op = .ok c' ∧ c'.Valid := by
  cases op with
  | insert hash grants =>
      obtain ⟨answer, hrun, -, h'⟩ := h.insert_answer hash grants
      exact ⟨answer.2, by rw [apply, hrun]; rfl, h'⟩
  | remove hash l =>
      obtain ⟨answer, hrun, -, h'⟩ := h.remove_answer hash l
      exact ⟨answer.2, by rw [apply, hrun]; rfl, h'⟩
  | clear => exact ⟨c.clear, rfl, h.clear⟩

theorem run_valid (h : c.Valid) (ops : List Op) : ∃ c', c.run ops = .ok c' ∧ c'.Valid := by
  induction ops generalizing c with
  | nil => exact ⟨c, rfl, h⟩
  | cons op ops ih =>
      obtain ⟨c₁, hop, h₁⟩ := h.apply_valid op
      obtain ⟨c', hops, h'⟩ := ih h₁
      exact ⟨c', by rw [run, hop, ok_bind, hops], h'⟩

private theorem space_addressable (h : c.Valid) {r : Reservation}
    (hmax : 2 * c.capacity ≤ c.maxCapacity) (hr : r ∈ space (2 * c.capacity)) :
    Allocator.addressable r = true := by
  have hle := hmax.trans h.maxCapacity_le
  simp only [space, Arena.space, List.mem_cons, List.not_mem_nil, or_false] at hr
  rcases hr with rfl | rfl | rfl
  · exact Allocator.addressable_of_le hle (by decide)
  · exact Allocator.addressable_of_le hle (by decide)
  · exact Allocator.addressable_of_le hle (by decide)

theorem indexed (h : c.Valid) : c.Indexed where
  covers := by
    obtain ⟨chains, hcovers, -⟩ := Chains.covers h.sound
    exact ⟨chains, hcovers⟩
  chain := chain_eq h.sound
  resize := by
    intro capacity grants hlt hadmits
    rcases resize_cases h.sound hlt grants with ⟨-, hr⟩ | ⟨⟨c', hrun, hresized⟩, -⟩
    · exact absurd hadmits hr
    · obtain ⟨chains, hcovers, -⟩ := Chains.covers hresized.sound
      exact ⟨c', hrun, hresized.hash, chains, hcovers⟩
  insert := by
    intro hash grants
    obtain ⟨answer, hrun, hanswer, -⟩ := h.insert_answer hash grants
    exact ⟨answer, hrun, hanswer⟩
  insert_addressable := by
    intro hash hmax
    obtain ⟨answer, hrun, hanswer, -⟩ := h.insert_answer hash .addressable
    cases hanswer with
    | added fresh added => exact ⟨_, _, hrun⟩
    | full loaded tooLarge => exact absurd hmax (not_le.mpr tooLarge)
    | refused loaded asked refused =>
        rw [h.space_addressable hmax asked] at refused
        cases refused
  remove := by
    intro hash l
    obtain ⟨answer, hrun, hanswer, -⟩ := h.remove_answer hash l
    exact ⟨answer, hrun, hanswer⟩

end Valid

theorem ofCapacity_valid {capacity maxCapacity : Nat} (hpos : 0 < capacity)
    (hcap : capacity ≤ maxCapacity) (hmax : maxCapacity ≤ maxSlots) (loadFactor : UInt32) :
    (ofCapacity capacity loadFactor maxCapacity).Valid := by
  have hsize : (ofCapacity capacity loadFactor maxCapacity).capacity = capacity := by
    simp [ofCapacity, Chains.capacity]
  refine ⟨(ofCapacity_sound hpos loadFactor maxCapacity).1, ?_, hsize.trans_le hcap, hmax⟩
  rw [Limited, hsize]
  rfl

/-- However a new table is changed, its chains hold the live slots once each in their buckets, a
search for a hash gives the slots with this hash, a resize changes no hash, an insert adds one slot
or is refused the space and changes nothing, and a removal takes out a slot in the bucket of the
given hash or changes nothing. -/
theorem run_indexed {n maxCapacity : Nat} (hcap : 2 ^ n ≤ maxCapacity)
    (hmax : maxCapacity ≤ maxSlots) (loadFactor : UInt32) (ops : List Op) :
    ∃ c, (ofCapacity (2 ^ n) loadFactor maxCapacity).run ops = .ok c ∧ c.Indexed := by
  obtain ⟨c, hrun, h⟩ :=
    (ofCapacity_valid (Nat.two_pow_pos n) hcap hmax loadFactor).run_valid ops
  exact ⟨c, hrun, h.indexed⟩

/-- Two slots in one chain; the first is taken out with another hash of its bucket. -/
theorem run_indexed_two :
    2 ^ 1 ≤ 4 ∧ 4 ≤ maxSlots ∧
      ∃ c, (ofCapacity (2 ^ 1) 0x3f800000 4).run [.insert 1 .addressable, .insert 3 .addressable,
        .remove 5 (some 0), .remove 0 (some 1), .remove 1 none] = .ok c ∧ c.Indexed :=
  ⟨by decide, by decide, run_indexed (by decide) (by decide) _ _⟩

end TableIndex.Chains
