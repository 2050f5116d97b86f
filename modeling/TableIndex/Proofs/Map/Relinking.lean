import Mathlib.Data.List.Nodup
import TableIndex.Proofs.Map.Chains
import TableIndex.Proofs.Slot.Column

/-!
# Changes of one chain

A slot is put in front of a chain or taken out of one. Every change keeps the chains sound, and its
effect is stated on `hash?`, the hash of a live slot.
-/

namespace TableIndex.Chains

variable {c c' : Chains} {P : Slot → Prop}

private theorem getD_setIfInBounds {buckets : Array Link} {b : Nat} (hb : b < buckets.size)
    (l : Link) (b' : Nat) :
    (buckets.setIfInBounds b l).getD b' none = if b' = b then l else buckets.getD b' none := by
  simp only [Array.getD_eq_getD_getElem?]
  exact Slot.getD_setIfInBounds hb l none b'

theorem getD_replicate (capacity b : Nat) :
    (Array.replicate capacity (none : Link)).getD b none = none := by
  rw [Array.getD_eq_getD_getElem?, Array.getElem?_replicate]
  split <;> rfl

theorem Holds.congr (h : c.Holds P) (hbuckets : c'.buckets = c.buckets)
    (hlinks : c'.links = c.links) : c'.Holds P := by
  have hcap : c'.capacity = c.capacity := by rw [capacity, capacity, hbuckets]
  have hmask : c'.mask = c.mask := by rw [mask, mask, hcap]
  refine ⟨hlinks ▸ h.links, by rw [hlinks, hcap, h.capacity_eq], hcap ▸ h.pos, fun b hb => ?_⟩
  obtain ⟨slots, hseg, hnd, hmem⟩ := h.chained b (hcap ▸ hb)
  refine ⟨slots, ?_, hnd, ?_⟩
  · rw [hbuckets]
    exact hseg.congr fun s _ => by rw [hlinks]
  · simpa only [hash?, hlinks, hmask] using hmem

theorem Holds.of_empty (hlinks : c.links.Sound) (hcap : c.links.capacity = c.capacity)
    (hpos : 0 < c.capacity) (hempty : ∀ b < c.capacity, c.buckets.getD b none = none)
    (hfree : ∀ s, P s → c.hash? s = none) : c.Holds P := by
  refine ⟨hlinks, hcap, hpos, fun b hb => ⟨[], hempty b hb, List.nodup_nil, fun s => ?_⟩⟩
  simp only [List.not_mem_nil, false_iff]
  rintro ⟨hs, h, hlive, -⟩
  rw [hfree s hs] at hlive
  cases hlive

private theorem Holds.cons (h : c.Holds P) {s : Slot} {hash : UInt64} (hs : P s → c.hash? s = none)
    (hlinks : c'.links.Sound) (hcap : c'.links.capacity = c.links.capacity)
    (hbuckets : c'.buckets = c.buckets.setIfInBounds (Hash.bucket hash c.mask) (some s))
    (hget : ∀ u, c'.links.get? (some u) =
      if u = s then some ⟨c.head hash, hash⟩ else c.links.get? (some u)) :
    c'.Holds fun u => P u ∨ u = s := by
  have hbound := bucket_lt h hash
  have hsize : c'.capacity = c.capacity := by simp [capacity, hbuckets]
  have hmask : c'.mask = c.mask := by rw [mask, mask, hsize]
  have hself : c'.hash? s = some hash := by simp [hash?, hget]
  have hother : ∀ u, u ≠ s → c'.hash? u = c.hash? u := by
    intro u hu
    simp [hash?, hget, hu]
  refine ⟨hlinks, hcap.trans (h.capacity_eq.trans hsize.symm), hsize ▸ h.pos, fun b hb => ?_⟩
  obtain ⟨slots, hseg, hnd, hmem⟩ := h.chained b (hsize ▸ hb)
  have hnew : s ∉ slots := by
    intro hm
    obtain ⟨hp, h', hlive, -⟩ := (hmem s).mp hm
    rw [hs hp] at hlive
    cases hlive
  have hold : c'.Segment (c.buckets.getD b none) slots none := by
    refine hseg.congr fun u hu => ?_
    have hus : u ≠ s := fun e => hnew (e ▸ hu)
    rw [hget, if_neg hus]
  have hkept : ∀ u, u ≠ s → (u ∈ slots ↔ (P u ∨ u = s) ∧
      ∃ h, c'.hash? u = some h ∧ Hash.bucket h c'.mask = b) := by
    intro u hu
    rw [hmem, hother u hu, hmask]
    simp [hu]
  rw [hbuckets, getD_setIfInBounds hbound]
  by_cases hbb : b = Hash.bucket hash c.mask
  · subst hbb
    refine ⟨s :: slots, ?_, List.nodup_cons.mpr ⟨hnew, hnd⟩, fun u => ?_⟩
    · rw [if_pos rfl]
      exact ⟨rfl, ⟨c.head hash, hash⟩, by rw [hget, if_pos rfl], hold⟩
    · by_cases hu : u = s
      · subst hu
        simp [hself, hmask]
      · rw [List.mem_cons, or_iff_right hu, hkept u hu]
  · refine ⟨slots, by rwa [if_neg hbb], hnd, fun u => ?_⟩
    by_cases hu : u = s
    · subst hu
      simp [hself, hmask, hnew, Ne.symm hbb]
    · exact hkept u hu

/-- The same slots live and the same limits; hashes and chains may be others. -/
structure Alike (c c' : Chains) : Prop where
  slots : c.links.SameSlots c'.links
  capacity : c'.capacity = c.capacity
  maxCapacity : c'.maxCapacity = c.maxCapacity
  loadFactor : c'.loadFactor = c.loadFactor
  limit : c'.limit = c.limit

theorem Alike.refl (c : Chains) : c.Alike c := ⟨.refl _, rfl, rfl, rfl, rfl⟩

theorem Alike.trans {c'' : Chains} (h : c.Alike c') (k : c'.Alike c'') : c.Alike c'' where
  slots := h.slots.trans k.slots
  capacity := k.capacity.trans h.capacity
  maxCapacity := k.maxCapacity.trans h.maxCapacity
  loadFactor := k.loadFactor.trans h.loadFactor
  limit := k.limit.trans h.limit

/-- The same slots with the same hashes, chained in another way perhaps. -/
structure Relinks (c c' : Chains) : Prop extends c.Alike c' where
  hash : ∀ s, c'.hash? s = c.hash? s
  resizes : c'.resizes = c.resizes

theorem Relinks.refl (c : Chains) : c.Relinks c := ⟨.refl c, fun _ => rfl, rfl⟩

theorem Relinks.trans {c'' : Chains} (h : c.Relinks c') (k : c'.Relinks c'') : c.Relinks c'' :=
  ⟨h.toAlike.trans k.toAlike, fun s => (k.hash s).trans (h.hash s), k.resizes.trans h.resizes⟩

private theorem Relinks.put {s : Slot} {cell : ChainCell} (hs : c.links.get? (some s) = some cell)
    (next : Link) (buckets : Array Link) (hsize : buckets.size = c.buckets.size) :
    c.Relinks { c with buckets, links := c.links.put s ⟨next, cell.hash⟩ } where
  slots := .put hs _
  capacity := hsize
  maxCapacity := rfl
  loadFactor := rfl
  limit := rfl
  resizes := rfl
  hash := by
    intro u
    simp only [hash?, Arena.get?_put hs]
    split
    · next hu => simp [hu, hs]
    · rfl

theorem push_eq (h : c.Holds P) {s : Slot} {hash : UInt64} (hs : c.hash? s = some hash)
    (hnew : ¬ P s) :
    ∃ c', c.push s = .ok c' ∧ c.Relinks c' ∧ (c'.Holds fun u => P u ∨ u = s) ∧
      ∀ u, u ≠ s → c'.links.get? (some u) = c.links.get? (some u) := by
  obtain ⟨cell, hcell, rfl⟩ := hash?_eq_some.mp hs
  let bucket := Hash.bucket cell.hash c.mask
  let c' : Chains :=
    { c with
      buckets := c.buckets.setIfInBounds bucket (some s)
      links := c.links.put s ⟨c.head cell.hash, cell.hash⟩ }
  have hrun : c.push s = .ok c' := by
    simp only [push, hashAt_of_hash? hs, ok_bind, Arena.update_of_get? _ hcell, pure_eq_ok]
    rfl
  have hrelinks : c.Relinks c' := .put hcell _ _ (by simp)
  have hget := Arena.get?_put hcell ⟨c.head cell.hash, cell.hash⟩
  refine ⟨c', hrun, hrelinks, h.cons (fun hp => absurd hp hnew) (h.links.congr hrelinks.slots)
    hrelinks.slots.capacity rfl hget, fun u hu => ?_⟩
  rw [show c'.links = c.links.put s ⟨c.head cell.hash, cell.hash⟩ from rfl, hget, if_neg hu]

/-- The limit is that of the capacity. -/
def Limited (c : Chains) : Prop := c.limit = limitFor c.capacity c.loadFactor

/-- The chains are `c` with one more slot. -/
structure Adds (c c' : Chains) (s : Slot) (hash : UInt64) : Prop where
  sound : c'.Sound
  fresh : c.hash? s = none
  hash : ∀ u, c'.hash? u = if u = s then some hash else c.hash? u
  size : c'.size = c.size + 1
  maxCapacity : c'.maxCapacity = c.maxCapacity
  loadFactor : c'.loadFactor = c.loadFactor
  limited : c'.Limited

theorem link_eq (h : c.Sound) (hlimit : c.Limited) (hfree : c.links.hasFree = true)
    (hash : UInt64) :
    ∃ s c', c.link hash = (.ok s, c') ∧ c.Adds c' s hash ∧ c'.capacity = c.capacity ∧
      c'.resizes = c.resizes := by
  obtain ⟨s, links, hrun, hlinks, hfresh, hget, hcap, -, hsize⟩ :=
    Arena.allocate_of_hasFree h.links hfree ⟨c.head hash, hash⟩
  have hnone : c.hash? s = none := by
    rw [hash?, Option.map_eq_none_iff]
    simpa [Arena.contains] using hfresh
  let c' : Chains :=
    { c with buckets := c.buckets.setIfInBounds (Hash.bucket hash c.mask) (some s), links }
  have hholds : c'.Holds fun u => True ∨ u = s :=
    h.cons (fun _ => hnone) hlinks hcap rfl hget
  have hcap' : c'.capacity = c.capacity := by simp [c', capacity]
  refine ⟨s, c', by simp [link, hrun, c'], ⟨by simpa [Sound] using hholds, hnone, fun u => ?_,
    hsize, rfl, rfl, ?_⟩, hcap', rfl⟩
  · simp only [hash?, c', hget]
    split <;> rfl
  · rw [Limited, hcap']
    exact hlimit

private theorem before?_eq_none {l : Link} {slots : List Slot} (h : ∀ s ∈ slots, l ≠ some s)
    (before : Link) : before? l before slots = none := by
  induction slots generalizing before with
  | nil => rfl
  | cons t slots ih => rw [before?, if_neg (h t (by simp)), ih fun s hs => h s (by simp [hs])]

private theorem before?_append {s : Slot} {a b : List Slot} (hs : s ∉ a) (before : Link) :
    before? (some s) before (a ++ s :: b) = some (a.getLast?.or before) := by
  induction a generalizing before with
  | nil => simp [before?]
  | cons t a ih =>
      obtain ⟨hne, hs⟩ := not_or.mp (List.mem_cons.not.mp hs)
      rw [List.cons_append, before?, if_neg (by simpa using hne), ih hs, List.getLast?_cons]
      cases a.getLast? <;> rfl

private theorem bypass_eq {b : Nat} (hb : b < c.capacity) {pre post : List Slot} {s : Slot}
    {cell : ChainCell} (hseg : c.Segment (c.buckets.getD b none) (pre ++ s :: post) none)
    (hnd : (pre ++ s :: post).Nodup) (hs : c.links.get? (some s) = some cell) :
    ∃ c', c.bypass b pre.getLast? cell.next = .ok c' ∧ c.Relinks c' ∧
      c'.Segment (c'.buckets.getD b none) (pre ++ post) none ∧
      (∀ b', b' ≠ b → c'.buckets.getD b' none = c.buckets.getD b' none) ∧
      ∀ u, u ∉ pre → c'.links.get? (some u) = c.links.get? (some u) := by
  obtain ⟨k, hpre, rfl, cell', hs', hpost⟩ := segment_append.mp hseg
  obtain rfl : cell' = cell := Option.some.inj (hs'.symm.trans hs)
  rcases List.eq_nil_or_concat pre with rfl | ⟨init, t, rfl⟩
  · refine ⟨{ c with buckets := c.buckets.setIfInBounds b cell'.next }, rfl,
      ⟨⟨.refl _, by simp [capacity], rfl, rfl, rfl⟩, fun _ => rfl, rfl⟩, ?_, ?_, fun _ _ => rfl⟩
    · simp only [getD_setIfInBounds hb, if_pos]
      exact hpost.congr fun _ _ => rfl
    · intro b' hb'
      simp only [getD_setIfInBounds hb, if_neg hb']
  · rw [List.concat_eq_append] at *
    obtain ⟨_, hinit, rfl, before, ht, -⟩ := segment_append.mp hpre
    have hget := Arena.get?_put ht ⟨cell'.next, before.hash⟩
    have hsame : ∀ u, u ≠ t → (c.links.put t ⟨cell'.next, before.hash⟩).get? (some u) =
        c.links.get? (some u) := fun u hu => by rw [hget, if_neg hu]
    refine ⟨{ c with links := c.links.put t ⟨cell'.next, before.hash⟩ }, ?_,
      .put ht _ c.buckets rfl, ?_, fun _ _ => rfl, ?_⟩
    · simp [bypass, Arena.update_of_get? _ ht]
    · have hnt : t ∉ init ∧ t ∉ post := by
        simp only [List.append_assoc, List.nodup_append, List.mem_append, List.mem_cons] at hnd
        refine ⟨fun hm => ?_, fun hm => ?_⟩
        · exact hnd.2.2 t hm t (by simp) rfl
        · exact hnd.2.1.2.2 t (by simp) t (by simp [hm]) rfl
      rw [List.append_assoc]
      refine segment_append.mpr ⟨some t, ?_, rfl, ⟨cell'.next, before.hash⟩, ?_, ?_⟩
      · exact hinit.congr fun u hu => hsame u fun e => hnt.1 (e ▸ hu)
      · exact (hget t).trans (if_pos rfl)
      · exact hpost.congr fun u hu => hsame u fun e => hnt.2 (e ▸ hu)
    · intro u hu
      exact hsame u fun e => hu (by simp [e])

private theorem unlink_eq (h : c.Sound) {s : Slot} {cell : ChainCell}
    (hs : c.links.get? (some s) = some cell) :
    ∃ slots before c', c.chainFrom (c.head cell.hash) = .ok slots ∧
      before? (some s) none slots = some before ∧
      c.bypass (Hash.bucket cell.hash c.mask) before cell.next = .ok c' ∧ c.Relinks c' ∧
      c'.Holds fun u => u ≠ s := by
  have hlive : c.hash? s = some cell.hash := hash?_eq_some.mpr ⟨cell, hs, rfl⟩
  have hb := bucket_lt h cell.hash
  obtain ⟨slots, hchain, hseg, hnd, hmem⟩ := chainFrom_eq h hb
  obtain ⟨pre, post, rfl⟩ := List.append_of_mem ((hmem s).mpr ⟨trivial, _, hlive, rfl⟩)
  have hpre : s ∉ pre := fun hm => (List.nodup_append.mp hnd).2.2 s hm s (by simp) rfl
  have hpost : s ∉ post := (List.nodup_cons.mp (List.nodup_append.mp hnd).2.1).1
  obtain ⟨c', hrun, hc', hseg', hheads, hlinks⟩ := bypass_eq hb hseg hnd hs
  have hmask : c'.mask = c.mask := by rw [mask, mask, hc'.capacity]
  refine ⟨_, _, c', hchain, before?_append hpre none, by rwa [Option.or_none], hc',
    ⟨h.links.congr hc'.slots, ?_, hc'.capacity ▸ h.pos, fun b hbound => ?_⟩⟩
  · exact hc'.slots.capacity.trans (h.capacity_eq.trans hc'.capacity.symm)
  simp only [hc'.hash, hmask]
  by_cases hbb : b = Hash.bucket cell.hash c.mask
  · subst hbb
    refine ⟨pre ++ post, hseg', hnd.sublist (by simp), fun u => ?_⟩
    by_cases hu : u = s
    · simp [hu, hpre, hpost]
    · have := hmem u
      simp only [List.mem_append, List.mem_cons, hu, false_or, true_and] at this
      simp only [List.mem_append, this, ne_eq, hu, not_false_eq_true, true_and]
  · obtain ⟨others, hseg₂, hnd₂, hmem₂⟩ := h.chained b (hc'.capacity ▸ hbound)
    -- no slot of the bypassed chain stands in another
    have hdisjoint : ∀ u ∈ others, u ∉ pre ++ s :: post := by
      intro u hu hu'
      obtain ⟨-, h₁, hlive, hbucket⟩ := (hmem₂ u).mp hu
      obtain ⟨-, h₂, hlive', hbucket'⟩ := (hmem u).mp hu'
      obtain rfl : h₁ = h₂ := Option.some.inj (hlive.symm.trans hlive')
      exact hbb (hbucket.symm.trans hbucket')
    refine ⟨others, ?_, hnd₂, fun u => ?_⟩
    · rw [hheads b hbb]
      exact hseg₂.congr fun u hu => hlinks u fun hm => hdisjoint u hu (by simp [hm])
    · rw [hmem₂]
      refine and_congr_left fun hu => iff_of_true trivial ?_
      rintro rfl
      exact hdisjoint u ((hmem₂ u).mpr ⟨trivial, hu⟩) (by simp)

private theorem Holds.release {s : Slot} (h : c.Holds fun u => u ≠ s) {hash : UInt64}
    (hs : c.hash? s = some hash) :
    ∃ c', { c with links := (c.links.release (some s)).2 } = c' ∧ c'.Sound ∧
      (∀ u, c'.hash? u = if u = s then none else c.hash? u) ∧ c'.size + 1 = c.size := by
  obtain ⟨cell, hcell, -⟩ := hash?_eq_some.mp hs
  obtain ⟨links, hrun, hlinks, hget, hcap, -, hsize⟩ := Arena.release_of_get? h.links hcell
  have hhash : ∀ u, ({ c with links } : Chains).hash? u = if u = s then none else c.hash? u := by
    intro u
    simp only [hash?, hget]
    split <;> rfl
  refine ⟨{ c with links }, by rw [hrun], ⟨hlinks, hcap.trans h.capacity_eq, h.pos,
    fun b hb => ?_⟩, hhash, hsize⟩
  obtain ⟨slots, hseg, hnd, hmem⟩ := h.chained b hb
  have hne : ∀ u ∈ slots, u ≠ s := fun u hu => ((hmem u).mp hu).1
  refine ⟨slots, hseg.congr fun u hu => by rw [hget, if_neg (hne u hu)], hnd, fun u => ?_⟩
  rw [hmem, hhash]
  by_cases hu : u = s
  · simp [hu]
  · simp only [ne_eq, hu, not_false_eq_true, true_and, if_false]
    rfl

/-- The chains are `c` with one slot less. -/
structure Drops (c c' : Chains) (s : Slot) : Prop where
  sound : c'.Sound
  hash : ∀ u, c'.hash? u = if u = s then none else c.hash? u
  size : c'.size + 1 = c.size
  capacity : c'.capacity = c.capacity
  maxCapacity : c'.maxCapacity = c.maxCapacity
  loadFactor : c'.loadFactor = c.loadFactor
  limit : c'.limit = c.limit
  resizes : c'.resizes = c.resizes

theorem Drops.limited {s : Slot} (h : c.Drops c' s) (hc : c.Limited) : c'.Limited := by
  rw [Limited, h.limit, h.capacity, h.loadFactor]
  exact hc

theorem remove_run (h : c.Sound) {s : Slot} {own hash : UInt64} (hs : c.hash? s = some own)
    (hbucket : Hash.bucket own c.mask = Hash.bucket hash c.mask) :
    ∃ c₁, c.Relinks c₁ ∧ (c₁.Holds fun u => u ≠ s) ∧
      c.remove hash (some s) =
        .ok (true, { c₁ with links := (c₁.links.release (some s)).2 }) := by
  obtain ⟨cell, hcell, rfl⟩ := hash?_eq_some.mp hs
  obtain ⟨slots, before, c₁, hchain, hbefore, hbypass, hc₁, hholds⟩ := unlink_eq h hcell
  refine ⟨c₁, hc₁, hholds, ?_⟩
  rw [head, hbucket] at hchain
  rw [hbucket] at hbypass
  simp only [remove, head, hchain, hbefore, next, Arena.fetch_of_get? hcell, ok_bind, pure_eq_ok,
    hbypass]

theorem remove_eq (h : c.Sound) {s : Slot} {own hash : UInt64} (hs : c.hash? s = some own)
    (hbucket : Hash.bucket own c.mask = Hash.bucket hash c.mask) :
    ∃ c', c.remove hash (some s) = .ok (true, c') ∧ c.Drops c' s := by
  obtain ⟨c₁, hc₁, hholds, hrun⟩ := remove_run h hs hbucket
  obtain ⟨_, rfl, hsound, hhash, hsize⟩ := hholds.release ((hc₁.hash s).trans hs)
  refine ⟨_, hrun, hsound, fun u => ?_, hsize.trans hc₁.slots.size, hc₁.capacity, hc₁.maxCapacity,
    hc₁.loadFactor, hc₁.limit, hc₁.resizes⟩
  rw [hhash, hc₁.hash]

/-- A link that names no slot in the chain of a hash is not removed from it. -/
theorem remove_absent (h : c.Sound) {hash : UInt64} {l : Link}
    (hl : ∀ s own, l = some s → c.hash? s = some own →
      Hash.bucket own c.mask ≠ Hash.bucket hash c.mask) :
    c.remove hash l = .ok (false, c) := by
  obtain ⟨slots, hchain, -, -, hmem⟩ := chainFrom_eq h (bucket_lt h hash)
  have hnone : before? l none slots = none := by
    refine before?_eq_none (fun s hs e => ?_) none
    obtain ⟨-, own, hlive, hbucket⟩ := (hmem s).mp hs
    exact hl s own e hlive hbucket
  simp only [remove, head, hchain, hnone, ok_bind, pure_eq_ok]

theorem clear_sound (h : c.Sound) : c.clear.Sound ∧ ∀ s, c.clear.hash? s = none := by
  have hnone : ∀ s, c.clear.hash? s = none := by
    intro s
    simp [hash?, clear, Arena.clear_get? h.links]
  refine ⟨.of_empty (Arena.clear_sound h.links) ?_ ?_ ?_ fun s _ => hnone s, hnone⟩
  · simpa [clear, capacity, Arena.clear_capacity] using h.capacity_eq
  · simpa [clear, capacity] using h.pos
  · intro b _
    simp only [clear, Array.getD_eq_getD_getElem?, Array.getElem?_map]
    cases c.buckets[b]? <;> rfl

theorem ofCapacity_sound {capacity : Nat} (hpos : 0 < capacity) (loadFactor : UInt32)
    (maxCapacity : Nat) :
    (ofCapacity capacity loadFactor maxCapacity).Sound ∧
      ∀ s, (ofCapacity capacity loadFactor maxCapacity).hash? s = none := by
  have hnone : ∀ s, (ofCapacity capacity loadFactor maxCapacity).hash? s = none := by
    intro s
    simp [hash?, ofCapacity, Arena.ofCapacity_get?]
  refine ⟨.of_empty (Arena.ofCapacity_sound _ _) ?_ ?_ ?_ fun s _ => hnone s, hnone⟩
  · simp [ofCapacity, Arena.ofCapacity, Arena.capacity, Chains.capacity]
  · simpa [ofCapacity, Chains.capacity] using hpos
  · exact fun b _ => getD_replicate capacity b

end TableIndex.Chains
