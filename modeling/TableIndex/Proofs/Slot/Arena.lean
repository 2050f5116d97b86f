import Mathlib.Tactic
import TableIndex.Slot.Arena

/-!
# Slots of an arena

An arena is sound when the slots below its frontier are the live ones and the freed ones, each of
one kind only. Every operation keeps an arena sound, and its effect is stated on `get?`, the record
of a live slot.
-/

namespace TableIndex

@[simp] theorem ok_bind {ε α β : Type} (a : α) (f : α → Except ε β) :
    (Except.ok a >>= f) = f a := rfl

@[simp] theorem error_bind {ε α β : Type} (e : ε) (f : α → Except ε β) :
    (Except.error e >>= f) = Except.error e := rfl

@[simp] theorem pure_eq_ok {ε α : Type} (a : α) : (pure a : Except ε α) = Except.ok a := rfl

/-- A computation that gives a result is one whose beginning does. -/
theorem bind_eq_ok {ε α β : Type} {x : Except ε α} {f : α → Except ε β} {b : β} :
    (x >>= f) = .ok b ↔ ∃ a, x = .ok a ∧ f a = .ok b := by
  cases x <;> simp

theorem snd_eq_of_ok {ε α β : Type} {a a' : α} {b b' : β}
    (h : (.ok (a, b) : Except ε (α × β)) = .ok (a', b')) : b = b' :=
  (Prod.mk.inj (Except.ok.inj h)).2

theorem Allocator.addressable_of_le {backing : Backing} {slots width : Nat}
    (hslots : slots ≤ maxSlots) (hwidth : width ≤ 64) :
    addressable ⟨backing, slots, width⟩ = true := by
  have hbytes := Nat.mul_le_mul hslots hwidth
  have hlt : maxSlots * 64 < Nat.pow 2 63 := by decide
  rw [addressable, decide_eq_true_iff]
  exact hbytes.trans_lt hlt

namespace Slot

variable {α : Type}

private theorem getElem?_fold_setIfInBounds (cells block : Array α) (empty : α) (n : Nat)
    (s : Slot) :
    (n.fold (fun u _ b => b.setIfInBounds u (cells[u]?.getD empty)) block)[s]? =
      if s < n ∧ s < block.size then some (cells[s]?.getD empty) else block[s]? := by
  have hsize : ∀ n : Nat,
      (n.fold (fun u _ b => b.setIfInBounds u (cells[u]?.getD empty)) block).size =
        block.size := by
    intro n
    induction n with
    | zero => rfl
    | succ n ih => rw [Nat.fold_succ, Array.size_setIfInBounds, ih]
  induction n with
  | zero => simp
  | succ n ih =>
      rw [Nat.fold_succ, Array.getElem?_setIfInBounds, hsize]
      by_cases hsn : n = s
      · subst hsn
        by_cases hlt : n < block.size
        · simp [hlt]
        · simp [hlt]
      · have hiff : s < n + 1 ↔ s < n :=
          Nat.lt_succ_iff_lt_or_eq.trans (or_iff_left (Ne.symm hsn))
        rw [if_neg hsn, ih]
        simp only [hiff]

theorem widen_eq {cells : Array α} {empty : α} {capacity : Nat} (h : cells.size ≤ capacity) :
    widen cells empty capacity = cells ++ Array.replicate (capacity - cells.size) empty := by
  refine Array.ext_getElem? fun s => ?_
  rw [widen, getElem?_fold_setIfInBounds, Array.size_replicate, Array.getElem?_append]
  by_cases hs : s < cells.size
  · rw [if_pos ⟨hs, hs.trans_le h⟩, if_pos hs, Array.getElem?_eq_getElem hs]
    rfl
  · rw [if_neg fun hc => hs hc.1, if_neg hs, Array.getElem?_replicate, Array.getElem?_replicate]
    have hiff : s < capacity ↔ s - cells.size < capacity - cells.size := by omega
    simp only [hiff]

/-- Growth keeps the cells and adds empty ones behind them. -/
theorem extend_eq_ok {cells cells' : Array α} {empty : α} {capacity : Nat} {granted : Bool}
    (h : extend cells empty capacity granted = .ok cells') :
    cells'.size = max cells.size capacity ∧ (∀ s < cells.size, cells'[s]? = cells[s]?) ∧
      ∀ s, cells.size ≤ s → s < cells'.size → cells'[s]? = some empty := by
  unfold extend at h
  by_cases hle : capacity ≤ cells.size
  · rw [if_pos hle] at h
    obtain rfl := Except.ok.inj h
    exact ⟨(max_eq_left hle).symm, fun _ _ => rfl, fun s hs hlt => absurd hlt (not_lt.mpr hs)⟩
  · rw [if_neg hle] at h
    split at h
    · obtain rfl := Except.ok.inj h
      rw [widen_eq (Nat.le_of_not_le hle)]
      have hsize : (cells ++ Array.replicate (capacity - cells.size) empty).size = capacity := by
        rw [Array.size_append, Array.size_replicate]
        omega
      refine ⟨by omega, fun s hs => Array.getElem?_append_left hs, fun s hs hlt => ?_⟩
      rw [Array.getElem?_append_right hs, Array.getElem?_replicate, if_pos (by omega)]
    · cases h

theorem extend_eq_error_iff {cells : Array α} {empty : α} {capacity : Nat} {granted : Bool}
    {e : Error} :
    extend cells empty capacity granted = .error e ↔
      e = .full capacity cells.size ∧ granted = false ∧ cells.size < capacity := by
  unfold extend
  by_cases hle : capacity ≤ cells.size
  · simp [hle]
  · have hlt : cells.size < capacity := Nat.lt_of_not_le hle
    cases granted with
    | true => simp [hle]
    | false => simp [hle, hlt, eq_comm]

end Slot

namespace Arena

variable {α : Type}

/-- The arena with the record of a live slot replaced. -/
def put (a : Arena α) (s : Slot) (record : α) : Arena α :=
  { a with cells := a.cells.setIfInBounds s ⟨record, true⟩ }

theorem get?_some (a : Arena α) (s : Slot) (record : α) :
    a.get? (some s) = some record ↔ a.cells[s]? = some ⟨record, true⟩ := by
  unfold get?
  rw [Option.bind_some]
  split
  · rename_i r h
    rw [h]
    simp
  · rename_i h
    constructor
    · intro h'
      simp at h'
    · intro h'
      exact absurd h' (h record)

@[simp] theorem get?_none (a : Arena α) : a.get? none = none := rfl

theorem contains_iff (a : Arena α) (s : Slot) :
    a.contains (some s) = true ↔ ∃ record, a.get? (some s) = some record := by
  rw [contains, Option.isSome_iff_exists]

@[simp] theorem contains_none (a : Arena α) : a.contains none = false := rfl

theorem lt_capacity {a : Arena α} {s : Slot} {record : α} (h : a.get? (some s) = some record) :
    s < a.capacity := by
  rw [get?_some] at h
  exact (Array.getElem?_eq_some_iff.mp h).1

theorem contains_of_get? {a : Arena α} {s : Slot} {record : α}
    (h : a.get? (some s) = some record) : a.contains (some s) = true :=
  (contains_iff a s).mpr ⟨record, h⟩

theorem contains_congr {a b : Arena α} {s : Slot} (h : a.get? (some s) = b.get? (some s)) :
    a.contains (some s) = b.contains (some s) := by
  rw [contains, contains, h]

theorem get?_setIfInBounds (a : Arena α) {s : Slot} (hs : s < a.capacity) (c : Cell α) (u : Slot) :
    ({ a with cells := a.cells.setIfInBounds s c } : Arena α).get? (some u) =
      if u = s then (if c.live then some c.record else none) else a.get? (some u) := by
  unfold get?
  simp only [Option.bind_some, Array.getElem?_setIfInBounds]
  by_cases hu : u = s
  · subst u
    obtain ⟨record, live⟩ := c
    have hs' : s < a.cells.size := hs
    cases live <;> simp [hs']
  · simp [hu, Ne.symm hu]

theorem fetch_of_get? {a : Arena α} {s : Slot} {record : α} (h : a.get? (some s) = some record) :
    a.fetch (some s) = .ok record := by
  rw [get?_some] at h
  simp [fetch, Slot.fetch, h]

theorem update_of_get? {a : Arena α} {s : Slot} {record : α} (f : α → α)
    (h : a.get? (some s) = some record) : a.update (some s) f = .ok (a.put s (f record)) := by
  rw [get?_some] at h
  simp [update, Slot.fetch, h, put]

theorem get?_put {a : Arena α} {s : Slot} {old : α} (h : a.get? (some s) = some old) (record : α)
    (u : Slot) :
    (a.put s record).get? (some u) = if u = s then some record else a.get? (some u) := by
  rw [put, get?_setIfInBounds a (lt_capacity h)]
  simp

/-- Two arenas with the same slots live, free and never used. -/
structure SameSlots (a b : Arena α) : Prop where
  freed : b.freed = a.freed
  frontier : b.frontier = a.frontier
  size : b.size = a.size
  capacity : b.capacity = a.capacity
  contains : ∀ s, b.contains (some s) = a.contains (some s)

namespace SameSlots

theorem refl (a : Arena α) : SameSlots a a := ⟨rfl, rfl, rfl, rfl, fun _ => rfl⟩

theorem trans {a b c : Arena α} (h : SameSlots a b) (k : SameSlots b c) : SameSlots a c where
  freed := k.freed.trans h.freed
  frontier := k.frontier.trans h.frontier
  size := k.size.trans h.size
  capacity := k.capacity.trans h.capacity
  contains := fun s => (k.contains s).trans (h.contains s)

theorem symm {a b : Arena α} (h : SameSlots a b) : SameSlots b a where
  freed := h.freed.symm
  frontier := h.frontier.symm
  size := h.size.symm
  capacity := h.capacity.symm
  contains := fun s => (h.contains s).symm

theorem put {a : Arena α} {s : Slot} {old : α} (h : a.get? (some s) = some old) (record : α) :
    SameSlots a (a.put s record) where
  freed := rfl
  frontier := rfl
  size := rfl
  capacity := by simp [Arena.put, Arena.capacity]
  contains := by
    intro u
    by_cases hu : u = s
    · subst u
      rw [contains_of_get? h, contains_iff]
      exact ⟨record, by rw [get?_put h, if_pos rfl]⟩
    · apply contains_congr
      rw [get?_put h, if_neg hu]

end SameSlots

/-- The slots below the frontier are the live ones and the freed ones, no slot is both, no slot is
freed twice, and the live ones are counted. -/
structure Sound (a : Arena α) : Prop where
  frontier_le : a.frontier ≤ a.capacity
  freed_nodup : a.freed.Nodup
  used_iff : ∀ s, s < a.frontier ↔ a.contains (some s) = true ∨ s ∈ a.freed
  free_of_freed : ∀ s ∈ a.freed, a.contains (some s) = false
  size_add : a.size + a.freed.length = a.frontier

theorem Sound.congr {a b : Arena α} (h : a.Sound) (k : SameSlots a b) : b.Sound where
  frontier_le := by rw [k.frontier, k.capacity]; exact h.frontier_le
  freed_nodup := by rw [k.freed]; exact h.freed_nodup
  used_iff := by intro s; rw [k.frontier, k.freed, k.contains]; exact h.used_iff s
  free_of_freed := by intro s hs; rw [k.contains]; rw [k.freed] at hs; exact h.free_of_freed s hs
  size_add := by rw [k.size, k.freed, k.frontier]; exact h.size_add

private theorem Sound.lt_frontier {a : Arena α} (h : a.Sound) {s : Slot}
    (hs : a.contains (some s) = true) : s < a.frontier :=
  (h.used_iff s).mpr (.inl hs)

private theorem occupy_sound {a : Arena α} {s : Slot} (hs : s < a.capacity) (record : α)
    {freed : List Slot} {frontier : Nat} (hle : frontier ≤ a.capacity) (hnd : freed.Nodup)
    (hused : ∀ u, u < frontier ↔ (u = s ∨ a.contains (some u) = true) ∨ u ∈ freed)
    (hfreed : ∀ u ∈ freed, u ≠ s ∧ a.contains (some u) = false)
    (hsize : a.size + 1 + freed.length = frontier) :
    ∃ b : Arena α, ({ a with cells := a.cells.setIfInBounds s ⟨record, true⟩, freed := freed,
                             frontier := frontier, size := a.size + 1 } : Arena α) = b ∧ b.Sound ∧
      (∀ u, b.get? (some u) = if u = s then some record else a.get? (some u)) ∧
      b.capacity = a.capacity ∧ b.guarded = a.guarded ∧ b.size = a.size + 1 := by
  let b : Arena α := { a with cells := a.cells.setIfInBounds s ⟨record, true⟩, freed := freed,
                              frontier := frontier, size := a.size + 1 }
  have hget : ∀ u, b.get? (some u) = if u = s then some record else a.get? (some u) := by
    intro u
    simpa [b, get?] using get?_setIfInBounds a hs ⟨record, true⟩ u
  have hlive : ∀ u, b.contains (some u) = true ↔ u = s ∨ a.contains (some u) = true := by
    intro u
    by_cases hu : u = s
    · simp [contains, hget, hu]
    · simp [contains, hget, hu]
  have hcap : b.capacity = a.capacity := by simp [b, capacity]
  refine ⟨b, rfl, ⟨hle.trans_eq hcap.symm, hnd, fun u => ?_, fun u hu => ?_, hsize⟩, hget, hcap,
    rfl, rfl⟩
  · rw [hlive]
    exact hused u
  · rw [Bool.eq_false_iff, ne_eq, hlive]
    simp [hfreed u hu]

/-- An arena with a free slot gives one out that was not live. -/
theorem allocate_of_hasFree {a : Arena α} (h : a.Sound) (hf : a.hasFree = true) (record : α) :
    ∃ s b, a.allocate record = (some s, b) ∧ b.Sound ∧ a.contains (some s) = false ∧
      (∀ u, b.get? (some u) = if u = s then some record else a.get? (some u)) ∧
      b.capacity = a.capacity ∧ b.guarded = a.guarded ∧ b.size = a.size + 1 := by
  have hadd := h.size_add
  cases hfreed : a.freed with
  | cons s rest =>
      have hmem : s ∈ a.freed := by simp [hfreed]
      have hs : s < a.capacity := ((h.used_iff s).mpr (.inr hmem)).trans_le h.frontier_le
      have hnd := h.freed_nodup
      rw [hfreed, List.nodup_cons] at hnd
      rw [hfreed, List.length_cons] at hadd
      obtain ⟨b, hb, hsound, heffect⟩ :=
        occupy_sound hs record h.frontier_le hnd.2
          (fun u => by
            rw [h.used_iff u, hfreed, List.mem_cons]
            tauto)
          (fun u hu => ⟨fun e => hnd.1 (e ▸ hu), h.free_of_freed u (by simp [hfreed, hu])⟩)
          (by omega)
      exact ⟨s, b, by rw [← hb, allocate, hfreed], hsound, h.free_of_freed s hmem, heffect⟩
  | nil =>
      have hlt : a.frontier < a.capacity := by simpa [hasFree, hfreed] using hf
      have hfree : a.contains (some a.frontier) = false := by
        rw [Bool.eq_false_iff]
        exact fun hc => lt_irrefl _ (h.lt_frontier hc)
      rw [hfreed, List.length_nil] at hadd
      have hused := h.used_iff
      simp only [hfreed, List.not_mem_nil, or_false] at hused
      obtain ⟨b, hb, hsound, heffect⟩ :=
        occupy_sound hlt record (Nat.succ_le_of_lt hlt) List.nodup_nil
          (fun u => by
            rw [Nat.lt_succ_iff_lt_or_eq, hused u]
            simp [or_comm])
          (by simp) (by simpa using hadd)
      refine ⟨a.frontier, b, ?_, hsound, hfree, heffect⟩
      rw [← hb, allocate, hfreed]
      simp [hlt]

theorem allocate_of_full {a : Arena α} (hf : a.hasFree = false) (record : α) :
    a.allocate record = (none, a) := by
  simp only [hasFree, Bool.or_eq_false_iff, Bool.not_eq_false', List.isEmpty_iff,
    decide_eq_false_iff_not] at hf
  simp [allocate, hf.1, hf.2]

theorem mem_inUse {a : Arena α} (h : a.Sound) (s : Slot) :
    s ∈ a.inUse ↔ a.contains (some s) = true := by
  rw [inUse, List.mem_filter, List.mem_range]
  exact ⟨fun hs => hs.2, fun hs => ⟨h.lt_frontier hs, hs⟩⟩

theorem inUse_nodup (a : Arena α) : a.inUse.Nodup := List.nodup_range.filter _

/-- The size is the number of live slots. -/
theorem length_inUse {a : Arena α} (h : a.Sound) : a.inUse.length = a.size := by
  have hperm : (a.inUse ++ a.freed).Perm (List.range a.frontier) := by
    rw [List.perm_ext_iff_of_nodup]
    · intro s
      rw [List.mem_append, mem_inUse h, List.mem_range, h.used_iff]
    · rw [List.nodup_append]
      refine ⟨inUse_nodup a, h.freed_nodup, ?_⟩
      rintro s hs u hu rfl
      rw [mem_inUse h, h.free_of_freed s hu] at hs
      exact Bool.false_ne_true hs
    · exact List.nodup_range
  have hlen := hperm.length_eq
  have := h.size_add
  simp only [List.length_append, List.length_range] at hlen
  omega

/-- A list of all live slots without repetition has as many members as there are live slots. -/
theorem length_eq_size {a : Arena α} (h : a.Sound) {slots : List Slot} (hnd : slots.Nodup)
    (hlive : ∀ s, a.contains (some s) = true ↔ s ∈ slots) : slots.length = a.size := by
  rw [← length_inUse h]
  apply List.Perm.length_eq
  rw [List.perm_ext_iff_of_nodup hnd (inUse_nodup a)]
  intro s
  rw [mem_inUse h, hlive]

theorem length_le_size {a : Arena α} (h : a.Sound) {slots : List Slot} (hnd : slots.Nodup)
    (hlive : ∀ s ∈ slots, a.contains (some s) = true) : slots.length ≤ a.size := by
  rw [← length_inUse h]
  exact (hnd.subperm fun s hs => (mem_inUse h s).mpr (hlive s hs)).length_le

theorem size_le_capacity {a : Arena α} (h : a.Sound) : a.size ≤ a.capacity :=
  le_trans (Nat.le.intro h.size_add) h.frontier_le

/-- As many live slots as there are, without repetition, are all of them. -/
theorem mem_of_length_eq {a : Arena α} (h : a.Sound) {slots : List Slot} (hnd : slots.Nodup)
    (hlive : ∀ s ∈ slots, a.contains (some s) = true) (hlength : slots.length = a.size) {s : Slot}
    (hs : a.contains (some s) = true) : s ∈ slots := by
  have hsub : slots.Subperm a.inUse := hnd.subperm fun u hu => (mem_inUse h u).mpr (hlive u hu)
  have hperm := hsub.perm_of_length_le ((length_inUse h).trans hlength.symm).le
  exact hperm.mem_iff.mpr ((mem_inUse h s).mpr hs)

/-- All live slots, also those beyond the frontier. -/
def live (a : Arena α) : List Slot := (List.range a.capacity).filter fun s => a.contains (some s)

/-- The live count is the number of live slots. Nothing is said of the free list. -/
def Counted (a : Arena α) : Prop := a.live.length = a.size

private theorem mem_live {a : Arena α} {s : Slot} : s ∈ a.live ↔ a.contains (some s) = true := by
  rw [live, List.mem_filter, List.mem_range]
  refine ⟨fun hs => hs.2, fun hs => ⟨?_, hs⟩⟩
  obtain ⟨record, hrecord⟩ := (contains_iff a s).mp hs
  exact lt_capacity hrecord

theorem Sound.counted {a : Arena α} (h : a.Sound) : a.Counted :=
  length_eq_size h (List.nodup_range.filter _) fun _ => mem_live.symm

/-- The arena with every free slot on the free list. -/
def tidy (a : Arena α) : Arena α :=
  { a with
    freed := (List.range a.capacity).filter fun s => !a.contains (some s)
    frontier := a.capacity }

theorem tidy_sound {a : Arena α} (h : a.Counted) : a.tidy.Sound where
  frontier_le := le_rfl
  freed_nodup := List.nodup_range.filter _
  used_iff := by
    intro s
    have hlive : a.tidy.contains (some s) = a.contains (some s) := rfl
    have hfreed : s ∈ a.tidy.freed ↔ s < a.capacity ∧ a.contains (some s) = false := by
      simp [tidy]
    rw [hlive, hfreed]
    cases hs : a.contains (some s) with
    | false => simp [tidy]
    | true =>
        obtain ⟨record, hrecord⟩ := (contains_iff a s).mp hs
        simpa [tidy] using lt_capacity hrecord
  free_of_freed := by
    intro s hs
    have hfree := (List.mem_filter.mp hs).2
    exact (Bool.not_eq_true' _).mp hfree
  size_add := by
    have hsplit := List.length_eq_length_filter_add (l := List.range a.capacity)
      fun s => a.contains (some s)
    rw [List.length_range] at hsplit
    calc a.size + a.tidy.freed.length = a.live.length + a.tidy.freed.length := by rw [← h]
      _ = a.capacity := hsplit.symm

theorem exists_fetch {a : Arena α} {s : Slot} (hlt : s < a.capacity)
    (hguard : a.guarded = true → a.contains (some s) = true) :
    ∃ record, a.fetch (some s) = .ok record := by
  have hcell : a.cells[s]? = some a.cells[s] := Array.getElem?_eq_getElem hlt
  cases hg : a.guarded with
  | true =>
      obtain ⟨record, hrecord⟩ := (contains_iff a s).mp (hguard hg)
      exact ⟨record, fetch_of_get? hrecord⟩
  | false => exact ⟨a.cells[s].record, by simp [fetch, Slot.fetch, hcell, hg]⟩

namespace SameSlots

variable {a b : Arena α}

theorem hasFree (h : SameSlots a b) : b.hasFree = a.hasFree := by
  rw [Arena.hasFree, Arena.hasFree, h.freed, h.frontier, h.capacity]

theorem inUse (h : SameSlots a b) : b.inUse = a.inUse := by
  rw [Arena.inUse, Arena.inUse, h.frontier]
  exact List.filter_congr fun s _ => h.contains s

private theorem set (h : SameSlots a b) {s : Slot} (hs : s < a.capacity) {c d : Cell α}
    (hlive : d.live = c.live) {freed freed' : List Slot} (hfreed : freed' = freed)
    {frontier frontier' size size' : Nat} (hfrontier : frontier' = frontier)
    (hsize : size' = size) :
    SameSlots { a with cells := a.cells.setIfInBounds s c, freed, frontier, size }
      { b with cells := b.cells.setIfInBounds s d, freed := freed', frontier := frontier',
               size := size' } where
  freed := hfreed
  frontier := hfrontier
  size := hsize
  capacity := by
    rw [Arena.capacity, Arena.capacity, Array.size_setIfInBounds, Array.size_setIfInBounds]
    exact h.capacity
  contains := by
    intro u
    have hset : ∀ {x : Arena α} (e : Cell α), s < x.capacity →
        ({ x with cells := x.cells.setIfInBounds s e } : Arena α).contains (some u) =
          if u = s then e.live else x.contains (some u) := by
      intro x e hx
      rw [Arena.contains, get?_setIfInBounds x hx]
      by_cases hu : u = s
      · cases he : e.live <;> simp [hu]
      · simp [hu, Arena.contains]
    have hboth := (hset d (hs.trans_eq h.capacity.symm)).trans
      (show _ = if u = s then c.live else a.contains (some u) by rw [hlive, h.contains])
    exact hboth.trans (hset c hs).symm

theorem allocate (h : SameSlots a b) (ha : a.Sound) (x y : α) :
    (b.allocate y).1 = (a.allocate x).1 ∧ SameSlots (a.allocate x).2 (b.allocate y).2 := by
  have hfreed' := h.freed
  cases hfreed : a.freed with
  | cons s rest =>
      rw [hfreed] at hfreed'
      have hs : s < a.capacity :=
        ((ha.used_iff s).mpr (.inr (by simp [hfreed]))).trans_le ha.frontier_le
      simp only [Arena.allocate, hfreed, hfreed']
      exact ⟨trivial, h.set (c := ⟨x, true⟩) (d := ⟨y, true⟩) hs rfl rfl h.frontier
        (congrArg (· + 1) h.size)⟩
  | nil =>
      rw [hfreed] at hfreed'
      simp only [Arena.allocate, hfreed, hfreed', h.frontier, h.capacity]
      by_cases hlt : a.frontier < a.capacity
      · simp only [if_pos hlt]
        exact ⟨trivial, h.set (c := ⟨x, true⟩) (d := ⟨y, true⟩) hlt rfl rfl rfl
          (congrArg (· + 1) h.size)⟩
      · simp only [if_neg hlt]
        exact ⟨trivial, h⟩

end SameSlots

variable [Inhabited α]

theorem ofCapacity_get? (capacity : Nat) (guarded : Bool) (l : Link) :
    (ofCapacity capacity guarded : Arena α).get? l = none := by
  cases l with
  | none => rfl
  | some s =>
      rw [Option.eq_none_iff_forall_ne_some]
      intro record h
      rw [get?_some] at h
      simp [ofCapacity, Array.getElem?_replicate] at h

theorem ofCapacity_sound (capacity : Nat) (guarded : Bool) :
    (ofCapacity capacity guarded : Arena α).Sound where
  frontier_le := Nat.zero_le _
  freed_nodup := List.nodup_nil
  used_iff := by
    intro s
    rw [contains, ofCapacity_get?]
    simp [ofCapacity]
  free_of_freed := by intro s hs; simp [ofCapacity] at hs
  size_add := rfl

/-- Releasing a live slot gives its record and frees that slot alone. -/
theorem release_of_get? {a : Arena α} (h : a.Sound) {s : Slot} {record : α}
    (hs : a.get? (some s) = some record) :
    ∃ b, a.release (some s) = (some record, b) ∧ b.Sound ∧
      (∀ u, b.get? (some u) = if u = s then none else a.get? (some u)) ∧
      b.capacity = a.capacity ∧ b.guarded = a.guarded ∧ b.size + 1 = a.size := by
  have hc := contains_of_get? hs
  have hlt := h.lt_frontier hc
  have hnot : s ∉ a.freed := by
    intro hm
    simp [h.free_of_freed s hm] at hc
  let b : Arena α := { a with cells := a.cells.setIfInBounds s ⟨default, false⟩,
                              freed := s :: a.freed, size := a.size - 1 }
  have hget : ∀ u, b.get? (some u) = if u = s then none else a.get? (some u) := by
    intro u
    have := get?_setIfInBounds a (lt_capacity hs) ⟨default, false⟩ u
    simpa [b, get?] using this
  have hlive : ∀ u, b.contains (some u) = true ↔ u ≠ s ∧ a.contains (some u) = true := by
    intro u
    by_cases hu : u = s
    · simp [contains, hget, hu]
    · simp [contains, hget, hu]
  -- a live slot is not freed, so some slot below the frontier is counted in the size
  have hpos : 0 < a.size := by
    have hsub : (s :: a.freed).length ≤ a.frontier := by
      have hnd : (s :: a.freed).Nodup := List.nodup_cons.mpr ⟨hnot, h.freed_nodup⟩
      have hss : s :: a.freed ⊆ List.range a.frontier := by
        intro u hu
        rw [List.mem_range]
        rcases List.mem_cons.mp hu with rfl | hu
        · exact hlt
        · exact (h.used_iff u).mpr (.inr hu)
      simpa using (List.subperm_of_subset hnd hss).length_le
    have := h.size_add
    rw [List.length_cons] at hsub
    omega
  refine ⟨b, by simp [release, hs, b], ?_, hget, by simp [b, capacity], rfl, ?_⟩
  · constructor
    · simpa [b, capacity] using h.frontier_le
    · exact List.nodup_cons.mpr ⟨hnot, h.freed_nodup⟩
    · intro u
      rw [hlive]
      show u < a.frontier ↔ _ ∨ u ∈ s :: a.freed
      rw [h.used_iff u, List.mem_cons]
      by_cases hu : u = s
      · subst u; simp [hc]
      · simp [hu]
    · intro u hu
      rw [Bool.eq_false_iff, ne_eq, hlive]
      rcases List.mem_cons.mp hu with rfl | hu
      · simp
      · simp [h.free_of_freed u hu]
    · have := h.size_add
      show a.size - 1 + (s :: a.freed).length = a.frontier
      rw [List.length_cons]
      omega
  · show a.size - 1 + 1 = a.size
    omega

theorem release_of_free {a : Arena α} {l : Link} (h : a.get? l = none) :
    a.release l = (none, a) := by
  cases l with
  | none => rfl
  | some s => simp [release, h]

theorem grow_capacity {a b : Arena α} {width capacity : Nat} {grants : Allocator}
    (h : a.grow width capacity grants = .ok b) :
    b.capacity = max a.capacity capacity ∧ b.freed = a.freed ∧ b.frontier = a.frontier ∧
      b.size = a.size ∧ b.guarded = a.guarded ∧ ∀ l, b.get? l = a.get? l := by
  obtain ⟨cells, hcells, hb⟩ := bind_eq_ok.mp h
  obtain rfl := Except.ok.inj hb
  obtain ⟨hsize, hkept, hfresh⟩ := Slot.extend_eq_ok hcells
  refine ⟨hsize, rfl, rfl, rfl, rfl, fun l => ?_⟩
  cases l with
  | none => rfl
  | some s =>
      unfold get?
      simp only [Option.bind_some]
      by_cases hs : s < a.cells.size
      · rw [hkept s hs]
      · have hbeyond := Nat.le_of_not_lt hs
        rw [Array.getElem?_eq_none hbeyond]
        by_cases hnew : s < cells.size
        · rw [hfresh s hbeyond hnew]
        · rw [Array.getElem?_eq_none (Nat.le_of_not_lt hnew)]

theorem grow_sound {a b : Arena α} (hs : a.Sound) {width capacity : Nat} {grants : Allocator}
    (h : a.grow width capacity grants = .ok b) : b.Sound := by
  obtain ⟨hcap, hfreed, hfrontier, hsize, -, hget⟩ := grow_capacity h
  have hlive : ∀ s, b.contains (some s) = a.contains (some s) :=
    fun s => contains_congr (hget (some s))
  constructor
  · rw [hfrontier, hcap]
    exact le_trans hs.frontier_le (le_max_left _ _)
  · rw [hfreed]; exact hs.freed_nodup
  · intro s; rw [hfrontier, hfreed, hlive]; exact hs.used_iff s
  · intro s hm; rw [hlive]; rw [hfreed] at hm; exact hs.free_of_freed s hm
  · rw [hsize, hfreed, hfrontier]; exact hs.size_add

/-- The space that an arena asks for when it grows. -/
def space (width capacity : Nat) : List Reservation :=
  [⟨.records, capacity, width⟩, ⟨.marks, capacity, 1⟩]

/-- An arena grows if its space is granted, and only then. -/
theorem grow_cases (a : Arena α) (width : Nat) {capacity : Nat} (hlt : a.capacity < capacity)
    (grants : Allocator) :
    (a.grow width capacity grants = .error (.full capacity a.capacity) ∧
        ∃ r ∈ space width capacity, grants r = false) ∨
      (∃ b, a.grow width capacity grants = .ok b) ∧
        ∀ r ∈ space width capacity, grants r = true := by
  have hle : ¬ capacity ≤ a.cells.size := not_le.mpr hlt
  cases hgrants : grants ⟨.records, capacity, width⟩ && grants ⟨.marks, capacity, 1⟩ with
  | false =>
      left
      refine ⟨?_, ?_⟩
      · simp only [grow, Slot.extend, hle, hgrants]
        rfl
      · rcases Bool.and_eq_false_iff.mp hgrants with hr | hr
        · exact ⟨_, by simp [space], hr⟩
        · exact ⟨_, by simp [space], hr⟩
  | true =>
      right
      refine ⟨?_, ?_⟩
      · simp only [grow, Slot.extend, hle, hgrants]
        exact ⟨_, rfl⟩
      · simpa [space] using hgrants

theorem clear_get? {a : Arena α} (h : a.Sound) (l : Link) : a.clear.get? l = none := by
  cases l with
  | none => rfl
  | some s =>
      rw [Option.eq_none_iff_forall_ne_some]
      intro record hr
      rw [get?_some] at hr
      simp only [clear, Array.getElem?_mapIdx] at hr
      cases hcell : a.cells[s]? with
      | none => simp [hcell] at hr
      | some cell =>
          rw [hcell, Option.map_some, Option.some.injEq] at hr
          by_cases hs : s < a.frontier
          · simp [hs] at hr
          · rw [if_neg hs] at hr
            have hlive : a.get? (some s) = some record := (get?_some a s record).mpr (hr ▸ hcell)
            exact hs (h.lt_frontier (contains_of_get? hlive))

theorem clear_sound {a : Arena α} (h : a.Sound) : a.clear.Sound where
  frontier_le := Nat.zero_le _
  freed_nodup := List.nodup_nil
  used_iff := by
    intro s
    simp [contains, clear_get? h, show a.clear.frontier = 0 from rfl,
      show a.clear.freed = [] from rfl]
  free_of_freed := by intro s hs; simp [clear] at hs
  size_add := rfl

theorem clear_capacity (a : Arena α) : a.clear.capacity = a.capacity := by
  simp [clear, capacity]

namespace SameSlots

variable {a b : Arena α}

theorem release (h : SameSlots a b) {s : Slot} {x y : α} (ha : a.get? (some s) = some x)
    (hb : b.get? (some s) = some y) :
    SameSlots (a.release (some s)).2 (b.release (some s)).2 := by
  simp only [Arena.release, ha, hb]
  exact h.set (lt_capacity ha) rfl (congrArg _ h.freed) h.frontier (congrArg (· - 1) h.size)

theorem grow (h : SameSlots a b) {width capacity : Nat} {grants : Allocator} {a' b' : Arena α}
    (ha : a.grow width capacity grants = .ok a') (hb : b.grow width capacity grants = .ok b') :
    SameSlots a' b' := by
  obtain ⟨hcap, hfreed, hfrontier, hsize, -, hget⟩ := grow_capacity ha
  obtain ⟨hcap', hfreed', hfrontier', hsize', -, hget'⟩ := grow_capacity hb
  constructor
  · rw [hfreed, hfreed', h.freed]
  · rw [hfrontier, hfrontier', h.frontier]
  · rw [hsize, hsize', h.size]
  · rw [hcap, hcap', h.capacity]
  · intro s
    rw [contains_congr (hget' _), contains_congr (hget _), h.contains]

theorem clear (h : SameSlots a b) (ha : a.Sound) (hb : b.Sound) : SameSlots a.clear b.clear where
  freed := rfl
  frontier := rfl
  size := rfl
  capacity := by rw [clear_capacity, clear_capacity, h.capacity]
  contains := by
    intro s
    rw [Arena.contains, Arena.contains, clear_get? ha, clear_get? hb]

end SameSlots
end Arena
end TableIndex
