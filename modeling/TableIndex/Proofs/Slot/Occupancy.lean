import TableIndex.Proofs.Slot.Arena

/-!
# Occupancy

Live marks, the free list with the frontier, and the live count are three accounts of one thing.
They agree after any run of allocations, releases, growth, clearing and writes, and so a slot is
handed out again only after it was released, the last one released first.
-/

namespace TableIndex.Arena

variable {α : Type}

/-- One use of an arena. `edit` writes to the record of any slot in range, `set` only to that of a
live one. -/
inductive Op (α : Type)
  | allocate (record : α)
  | release (l : Link)
  | grow (width capacity : Nat) (grants : Allocator)
  | clear
  | edit (l : Link) (f : α → α)
  | set (l : Link) (record : α)

/-- The slot that an operation names. -/
def Op.target : Op α → Link
  | release l => l
  | edit l _ => l
  | set l _ => l
  | allocate _ => none
  | grow .. => none
  | clear => none

/-- The slots that an operation puts on the free list. -/
def freedBy (a : Arena α) : Op α → List Slot
  | .release (some s) => if a.contains (some s) then [s] else []
  | _ => []

private theorem freed_allocate (a : Arena α) (record : α) :
    (a.allocate record).2.freed = a.freed.tail := by
  cases hfreed : a.freed with
  | cons s rest => simp [allocate, hfreed]
  | nil =>
      by_cases hlt : a.frontier < a.capacity
      · simp [allocate, hfreed, hlt]
      · simp [allocate, hfreed, hlt]

private theorem fst_allocate (a : Arena α) (record : α) (h : a.hasFree = true) :
    (a.allocate record).1 = some (a.freed.head?.getD a.frontier) := by
  cases hfreed : a.freed with
  | cons s rest => simp [allocate, hfreed]
  | nil =>
      have hlt : a.frontier < a.capacity := by simpa [hasFree, hfreed] using h
      simp [allocate, hfreed, hlt]

private theorem freed_release [Inhabited α] {a : Arena α} {s : Slot}
    (h : a.contains (some s) = true) :
    (a.release (some s)).2.freed = s :: a.freed := by
  obtain ⟨record, hrecord⟩ := (contains_iff a s).mp h
  simp [release, hrecord]

private theorem get?_eq_none {a : Arena α} {l : Link} (h : a.contains l = false) :
    a.get? l = none := by
  simpa [contains] using h

private theorem contains_of_cell {a : Arena α} {s : Slot} {cell : Cell α}
    (h : a.cells[s]? = some cell) :
    a.contains (some s) = cell.live := by
  obtain ⟨record, live⟩ := cell
  cases live with
  | true => exact contains_of_get? ((get?_some a s record).mpr h)
  | false => simp [contains, get?, h]

private theorem update_eq_ok {a b : Arena α} {l : Link} {f : α → α} (h : a.update l f = .ok b) :
    SameSlots a b ∧ ∀ s, l ≠ some s → b.get? (some s) = a.get? (some s) := by
  obtain ⟨cell, hcell, hrest⟩ := bind_eq_ok.mp h
  cases l with
  | none => cases hcell
  | some u =>
      have hu : a.cells[u]? = some cell := by
        cases hread : a.cells[u]? with
        | none => simp [Slot.fetch, hread] at hcell
        | some c => simpa [Slot.fetch, hread] using hcell
      have hlt : u < a.capacity := (Array.getElem?_eq_some_iff.mp hu).1
      split at hrest
      · cases hrest
      · obtain rfl := Except.ok.inj hrest
        have hget := get?_setIfInBounds a hlt { cell with record := f cell.record }
        refine ⟨⟨rfl, rfl, rfl, by simp [capacity], fun s => ?_⟩, fun s hs => ?_⟩
        · by_cases hsu : s = u
          · subst hsu
            rw [contains_of_cell hu, contains, Option.getD_some, hget, if_pos rfl]
            cases cell.live <;> rfl
          · rw [contains, Option.getD_some, hget, if_neg hsu, contains]
        · have hsu : s ≠ u := fun e => hs (congrArg some e.symm)
          rw [Option.getD_some, hget, if_neg hsu]

private theorem set?_eq_some {a b : Arena α} {l : Link} {record : α}
    (h : a.set? l record = some b) :
    SameSlots a b ∧ ∀ s, l ≠ some s → b.get? (some s) = a.get? (some s) := by
  cases l with
  | none => cases h
  | some u =>
      cases hu : a.get? (some u) with
      | none => simp [set?, hu] at h
      | some old =>
          obtain rfl : a.put u record = b := by simpa [set?, hu, put] using h
          refine ⟨.put hu record, fun s hs => ?_⟩
          rw [get?_put hu, if_neg fun e => hs (congrArg some e.symm)]

/-- The slots on the free list were all released, the ones in front later than those behind. The
releases are listed with the last one first. -/
structure Stacked (released freed : List Slot) : Prop where
  mem : ∀ s ∈ freed, s ∈ released
  latest : freed.Pairwise fun s u => released.idxOf s < released.idxOf u

namespace Stacked

variable {released freed : List Slot} {s : Slot}

private theorem nil (released : List Slot) : Stacked released [] := ⟨by simp, .nil⟩

private theorem tail (h : Stacked released freed) : Stacked released freed.tail where
  mem s hs := h.mem s (List.mem_of_mem_tail hs)
  latest := h.latest.tail

private theorem push (h : Stacked released freed) (hs : s ∉ freed) :
    Stacked (s :: released) (s :: freed) where
  mem := by
    intro u hu
    rcases List.mem_cons.mp hu with rfl | hu
    · exact List.mem_cons_self
    · exact List.mem_cons_of_mem s (h.mem u hu)
  latest := by
    have hlater : ∀ u ∈ freed, (s :: released).idxOf u = released.idxOf u + 1 := fun u hu =>
      List.idxOf_cons_ne released (ne_of_mem_of_not_mem hu hs).symm
    rw [List.pairwise_cons]
    constructor
    · intro u hu
      rw [hlater u hu, List.idxOf_cons_self]
      exact Nat.succ_pos _
    · refine h.latest.imp_of_mem fun {u v} hu hv huv => ?_
      rw [hlater u hu, hlater v hv]
      exact Nat.succ_lt_succ huv

private theorem find?_eq_head? (h : Stacked released freed) :
    released.find? (· ∈ freed) = freed.head? := by
  cases freed with
  | nil => simp
  | cons s rest =>
      obtain ⟨later, earlier, hsplit, hs⟩ :=
        List.eq_append_cons_of_mem (h.mem s List.mem_cons_self)
      have hnone : later.find? (· ∈ s :: rest) = none := by
        rw [List.find?_eq_none]
        intro u hu hmem
        have hrest : u ∈ rest := by
          rcases List.mem_cons.mp (of_decide_eq_true hmem) with rfl | hrest
          · exact absurd hu hs
          · exact hrest
        have hbefore := (List.pairwise_cons.mp h.latest).1 u hrest
        rw [hsplit, List.idxOf_append_of_notMem hs, List.idxOf_cons_self,
          List.idxOf_append_of_mem hu] at hbefore
        have := List.idxOf_lt_length_of_mem hu
        omega
      rw [hsplit, List.find?_append, hnone, Option.none_or]
      simp

end Stacked

/-- The arena `b` comes from `a` by an operation that names no slot but `target`. -/
structure Succeeds (a b : Arena α) (released : List Slot) (target : Link) : Prop where
  sound : b.Sound
  stacked : Stacked released b.freed
  kept : ∀ s, a.contains (some s) = true → target ≠ some s → b.get? (some s) = a.get? (some s)

private theorem Succeeds.of_sameSlots {a b : Arena α} {released : List Slot} {target : Link}
    (h : a.Sound) (hs : Stacked released a.freed) (hsame : SameSlots a b)
    (hget : ∀ s, target ≠ some s → b.get? (some s) = a.get? (some s)) :
    a.Succeeds b released target where
  sound := h.congr hsame
  stacked := by rwa [hsame.freed]
  kept s _ := hget s

section

variable [Inhabited α]

/-- The arena after one operation. Growth that is refused and a write to no slot change nothing. -/
def step (a : Arena α) : Op α → Arena α
  | .allocate record => (a.allocate record).2
  | .release l => (a.release l).2
  | .grow width capacity grants => (a.grow width capacity grants).toOption.getD a
  | .clear => a.clear
  | .edit l f => (a.update l f).toOption.getD a
  | .set l record => (a.set? l record).getD a

/-- The arena after a run, and the slots released until then, the last one first. -/
def run (a : Arena α) (released : List Slot) : List (Op α) → Arena α × List Slot
  | [] => (a, released)
  | op :: ops => (a.step op).run (a.freedBy op ++ released) ops

private theorem getD_cases {ε β : Type} (x : Except ε β) (b : β) :
    x.toOption.getD b = b ∨ x = .ok (x.toOption.getD b) := by
  cases x with
  | error e => exact .inl rfl
  | ok c => exact .inr rfl

private theorem step_succeeds {a : Arena α} {released : List Slot} (h : a.Sound)
    (hs : Stacked released a.freed) {op : Op α} (hop : op ≠ .clear) :
    a.Succeeds (a.step op) (a.freedBy op ++ released) op.target := by
  have hstays : a.Succeeds a released op.target := .of_sameSlots h hs (.refl a) fun _ _ => rfl
  cases op with
  | allocate record =>
      cases hfree : a.hasFree with
      | false => simpa only [step, allocate_of_full hfree, freedBy, List.nil_append] using hstays
      | true =>
          obtain ⟨u, b, hrun, hb, hnew, hget, -⟩ := allocate_of_hasFree h hfree record
          have hfreed := freed_allocate a record
          simp only [step, hrun] at hfreed ⊢
          refine ⟨hb, hfreed ▸ hs.tail, fun s hlive _ => ?_⟩
          have hsu : s ≠ u := fun e => by simp [e, hnew] at hlive
          rw [hget, if_neg hsu]
  | release l =>
      cases hl : a.contains l with
      | false =>
          have hnone : a.freedBy (.release l) = [] := by
            cases l with
            | none => rfl
            | some u => simp [freedBy, hl]
          simpa only [step, release_of_free (get?_eq_none hl), hnone, List.nil_append] using
            hstays
      | true =>
          cases l with
          | none => cases hl
          | some u =>
              obtain ⟨record, hrecord⟩ := (contains_iff a u).mp hl
              obtain ⟨b, hrun, hb, hget, -⟩ := release_of_get? h hrecord
              have hfreed := freed_release hl
              have hnot : u ∉ a.freed := fun hm => by simp [h.free_of_freed u hm] at hl
              simp only [step, hrun, freedBy, hl, if_true] at hfreed ⊢
              refine ⟨hb, hfreed ▸ hs.push hnot, fun s _ htarget => ?_⟩
              rw [hget, if_neg fun e => htarget (congrArg some e.symm)]
  | grow width capacity grants =>
      rcases getD_cases (a.grow width capacity grants) a with heq | hok
      · simpa only [step, heq, freedBy, List.nil_append] using hstays
      · obtain ⟨-, hfreed, -, -, -, hget⟩ := grow_capacity hok
        exact ⟨grow_sound h hok, hfreed.symm ▸ hs, fun s _ _ => hget (some s)⟩
  | clear => exact absurd rfl hop
  | edit l f =>
      rcases getD_cases (a.update l f) a with heq | hok
      · simpa only [step, heq, freedBy, List.nil_append] using hstays
      · exact .of_sameSlots h hs (update_eq_ok hok).1 (update_eq_ok hok).2
  | set l record =>
      cases hset : a.set? l record with
      | none =>
          simpa only [step, hset, Option.getD_none, freedBy, List.nil_append] using hstays
      | some b =>
          simp only [step, hset, Option.getD_some]
          exact .of_sameSlots h hs (set?_eq_some hset).1 (set?_eq_some hset).2

private theorem step_grow_cells (a : Arena α) (width capacity : Nat) (grants : Allocator) {s : Slot}
    (hs : s < a.capacity) : (a.step (.grow width capacity grants)).cells[s]? = a.cells[s]? := by
  rcases getD_cases (a.grow width capacity grants) a with heq | hok
  · rw [step, heq]
  · obtain ⟨cells, hcells, hb⟩ := bind_eq_ok.mp hok
    have hkept := (Slot.extend_eq_ok hcells).2.1 s hs
    rw [step, ← Except.ok.inj hb]
    exact hkept

private theorem hasFree_eq_false_iff {a : Arena α} (h : a.Sound) :
    a.hasFree = false ↔ ∀ s < a.capacity, a.contains (some s) = true := by
  constructor
  · intro hfull s hs
    simp only [hasFree, Bool.or_eq_false_iff, Bool.not_eq_false', List.isEmpty_iff,
      decide_eq_false_iff_not, not_lt] at hfull
    have hused := (h.used_iff s).mp (hs.trans_le hfull.2)
    simpa [hfull.1] using hused
  · intro hall
    rw [Bool.eq_false_iff]
    intro hfree
    obtain ⟨s, b, -, -, hnew, hget, hcap, -⟩ := allocate_of_hasFree h hfree default
    have hlt : s < b.capacity := lt_capacity ((hget s).trans (if_pos rfl))
    rw [hall s (hlt.trans_eq hcap)] at hnew
    exact Bool.noConfusion hnew

/-- The three accounts of an arena agree, and each operation acts by them; `released` are the slots
released so far, the last one first. -/
structure Occupied (a : Arena α) (released : List Slot) : Prop where
  lt_frontier_iff : ∀ s, s < a.frontier ↔ a.contains (some s) = true ∨ s ∈ a.freed
  disjoint : ∀ s ∈ a.freed, a.contains (some s) = false
  freed_nodup : a.freed.Nodup
  mem_inUse : ∀ s, s ∈ a.inUse ↔ a.contains (some s) = true
  inUse_sorted : a.inUse.Pairwise (· < ·)
  size_eq : a.size = a.inUse.length
  allocate_none : ∀ record,
    (a.allocate record).1 = none ↔ ∀ s < a.capacity, a.contains (some s) = true
  allocate_some : ∀ record s, (a.allocate record).1 = some s →
    a.contains (some s) = false ∧ s = (released.find? (· ∈ a.freed)).getD a.frontier ∧
      (a.allocate record).2.get? (some s) = some record
  release_live : ∀ s record, a.get? (some s) = some record →
    (a.release (some s)).1 = some record ∧ (a.release (some s)).2.contains (some s) = false
  release_free : ∀ l, a.contains l = false → a.release l = (none, a)
  clear_free : ∀ l, a.clear.contains l = false
  kept : ∀ op s, op ≠ .clear → op.target ≠ some s → a.contains (some s) = true →
    (a.step op).get? (some s) = a.get? (some s)
  grow_kept : ∀ width capacity grants, ∀ s < a.capacity,
    (a.step (.grow width capacity grants)).cells[s]? = a.cells[s]?

private theorem Sound.occupied {a : Arena α} {released : List Slot} (h : a.Sound)
    (hs : Stacked released a.freed) : a.Occupied released where
  lt_frontier_iff := h.used_iff
  disjoint := h.free_of_freed
  freed_nodup := h.freed_nodup
  mem_inUse := Arena.mem_inUse h
  inUse_sorted := List.pairwise_lt_range.filter _
  size_eq := (length_inUse h).symm
  allocate_none := by
    intro record
    rw [← hasFree_eq_false_iff h]
    cases hfree : a.hasFree with
    | true => simp [fst_allocate a record hfree]
    | false => simp [allocate_of_full hfree]
  allocate_some := by
    intro record s hrun
    cases hfree : a.hasFree with
    | true =>
        have hfirst := fst_allocate a record hfree
        obtain ⟨u, b, hu, -, hnew, hget, -⟩ := allocate_of_hasFree h hfree record
        rw [hu] at hrun hfirst ⊢
        obtain rfl := Option.some.inj hrun
        rw [hs.find?_eq_head?]
        exact ⟨hnew, Option.some.inj hfirst, (hget u).trans (if_pos rfl)⟩
    | false =>
        rw [allocate_of_full hfree] at hrun
        cases hrun
  release_live := by
    intro s record hrecord
    obtain ⟨b, hrun, -, hget, -⟩ := release_of_get? h hrecord
    rw [hrun]
    exact ⟨rfl, by simp [contains, hget]⟩
  release_free _ hl := release_of_free (get?_eq_none hl)
  clear_free l := by rw [contains, clear_get? h, Option.isSome_none]
  kept _ s hop htarget hlive := (step_succeeds h hs hop).kept s hlive htarget
  grow_kept _ _ _ _ := step_grow_cells a _ _ _

private theorem run_sound {a : Arena α} {released : List Slot} (h : a.Sound)
    (hs : Stacked released a.freed) (ops : List (Op α)) :
    (a.run released ops).1.Sound ∧
      Stacked (a.run released ops).2 (a.run released ops).1.freed := by
  induction ops generalizing a released with
  | nil => exact ⟨h, hs⟩
  | cons op ops ih =>
      by_cases hop : op = .clear
      · subst hop
        exact ih (clear_sound h) (.nil _)
      · have hstep := step_succeeds h hs hop
        exact ih hstep.sound hstep.stacked

/-- After every run the live slots and the free list share out the slots below the frontier, and the
next slot given out is the one on the free list that was released last. -/
theorem run_occupied (capacity : Nat) (guarded : Bool) (ops : List (Op α)) :
    ((ofCapacity capacity guarded).run [] ops).1.Occupied
      ((ofCapacity capacity guarded).run [] ops).2 := by
  have h := run_sound (ofCapacity_sound capacity guarded) (.nil []) ops
  exact h.1.occupied h.2

end

end TableIndex.Arena
