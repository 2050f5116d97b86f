import TableIndex.Proofs.Map.Relinking

/-!
# Larger tables

A resize walks the old chains while it builds the new ones in the same links. It is refused when the
capacity is too large or space is not granted; otherwise every live slot keeps its hash.
-/

namespace TableIndex

namespace Chains

variable {c c' : Chains} {P : Slot → Prop}

private theorem limitFor_le {capacity : Nat} (hpos : 0 < capacity) (loadFactor : UInt32) :
    limitFor capacity loadFactor ≤ capacity := by
  unfold limitFor
  dsimp only
  split
  · exact hpos
  · exact max_le hpos (min_le_left _ _)

private theorem limitFor_le_size (h : c.Sound) (hfull : c.links.hasFree = false) :
    limitFor c.capacity c.loadFactor ≤ c.size := by
  simp only [Arena.hasFree, Bool.or_eq_false_iff, Bool.not_eq_false', List.isEmpty_iff,
    decide_eq_false_iff_not, not_lt] at hfull
  have hsize := h.links.size_add
  rw [hfull.1, List.length_nil, Nat.add_zero] at hsize
  refine (limitFor_le h.pos _).trans ?_
  rw [size, hsize, ← h.capacity_eq]
  exact hfull.2

theorem nextCapacity?_eq (h : c.Sound) (hlimit : c.Limited) (hsmall : c.capacity ≤ maxSlots) :
    c.nextCapacity? =
      if c.size < limitFor c.capacity c.loadFactor then none else some (2 * c.capacity) := by
  have hmin : min (2 * c.capacity) (UInt64.size - 1) = 2 * c.capacity := by
    have : maxSlots = 2147483648 := rfl
    have : UInt64.size = 18446744073709551616 := rfl
    omega
  rw [nextCapacity?, hmin, show c.limit = _ from hlimit]
  by_cases hroom : c.size < limitFor c.capacity c.loadFactor
  · have hfree : c.links.hasFree = true := by
      by_contra hfull
      exact not_le.mpr hroom (limitFor_le_size h (Bool.eq_false_iff.mpr hfull))
    simp [hroom, hfree, Nat.not_lt.mpr (Nat.succ_le_of_lt hroom)]
  · simp [hroom, Nat.lt_succ_of_le (not_lt.mp hroom)]

theorem nextCapacity?_eq_some (h : c.Sound) (hlimit : c.Limited) (hsmall : c.capacity ≤ maxSlots)
    {capacity : Nat} (hnext : c.nextCapacity? = some capacity) :
    capacity = 2 * c.capacity ∧ limitFor c.capacity c.loadFactor ≤ c.size := by
  rw [nextCapacity?_eq h hlimit hsmall] at hnext
  split at hnext
  · cases hnext
  · next hfull => exact ⟨(Option.some.inj hnext).symm, not_lt.mp hfull⟩

theorem lt_of_nextCapacity? (h : c.Sound) (hlimit : c.Limited) (hsmall : c.capacity ≤ maxSlots)
    {capacity : Nat} (hnext : c.nextCapacity? = some capacity) : c.capacity < capacity := by
  rw [(nextCapacity?_eq_some h hlimit hsmall hnext).1]
  have := h.pos
  omega

/-- The slots of a chain are moved. Only their own links are overwritten, each one when the link
behind it has been read. -/
theorem moveChain_eq (h : c.Holds P) {l : Link} {slots : List Slot} {fuel : Nat}
    (hseg : c.Segment l slots none) (hnd : slots.Nodup) (hnew : ∀ s ∈ slots, ¬ P s)
    (hfuel : slots.length ≤ fuel) :
    ∃ c', moveChain fuel c l = .ok c' ∧ c.Relinks c' ∧ (c'.Holds fun u => P u ∨ u ∈ slots) ∧
      ∀ u, u ∉ slots → c'.links.get? (some u) = c.links.get? (some u) := by
  induction slots generalizing c P l fuel with
  | nil =>
      obtain rfl : l = none := hseg
      exact ⟨c, by cases fuel <;> rfl, .refl c, by simpa using h, fun _ _ => rfl⟩
  | cons s slots ih =>
      obtain ⟨fuel, rfl⟩ : ∃ f, fuel = f + 1 := ⟨fuel - 1, by simp at hfuel; omega⟩
      obtain ⟨rfl, cell, hs, hrest⟩ := hseg
      obtain ⟨hfresh, hnd⟩ := List.nodup_cons.mp hnd
      obtain ⟨c₁, hpush, hc₁, hholds, hframe⟩ :=
        push_eq h (hash?_eq_some.mpr ⟨cell, hs, rfl⟩) (hnew s (by simp))
      have hne : ∀ u ∈ slots, u ≠ s := fun u hu e => hfresh (e ▸ hu)
      have hrest₁ : c₁.Segment cell.next slots none :=
        hrest.congr fun u hu => hframe u (hne u hu)
      have hnew₁ : ∀ u ∈ slots, ¬ (P u ∨ u = s) := by
        rintro u hu (hp | rfl)
        · exact hnew u (by simp [hu]) hp
        · exact hfresh hu
      obtain ⟨c₂, hmove, hc₂, hholds₂, hframe₂⟩ :=
        ih hholds hrest₁ hnd hnew₁ (by simpa using hfuel)
      refine ⟨c₂, ?_, hc₁.trans hc₂, by simpa [or_assoc] using hholds₂, fun u hu => ?_⟩
      · simp only [moveChain, next, Arena.fetch_of_get? hs, ok_bind, pure_eq_ok, hpush, hmove]
      · obtain ⟨hus, hu⟩ := not_or.mp (List.mem_cons.not.mp hu)
        rw [hframe₂ u hu, hframe u hus]

/-- The chains are moved one after the other. Those still to be moved share no slot with the others,
so they stand as they did. -/
theorem moveChains_eq (h : c.Holds P) {heads : List Link} {chains : List (List Slot)} {fuel : Nat}
    (hsegs : List.Forall₂ (fun l slots => c.Segment l slots none) heads chains)
    (hnd : chains.flatten.Nodup) (hnew : ∀ s ∈ chains.flatten, ¬ P s)
    (hfuel : ∀ slots ∈ chains, slots.length ≤ fuel) :
    ∃ c', heads.foldlM (moveChain fuel) c = .ok c' ∧ c.Relinks c' ∧
      c'.Holds fun u => P u ∨ u ∈ chains.flatten := by
  induction chains generalizing c P heads with
  | nil =>
      cases hsegs
      exact ⟨c, rfl, .refl c, by simpa using h⟩
  | cons slots chains ih =>
      obtain ⟨l, heads, hseg, hothers, rfl⟩ := List.forall₂_cons_right_iff.mp hsegs
      rw [List.flatten_cons, List.nodup_append] at hnd
      obtain ⟨hnds, hndc, hdisjoint⟩ := hnd
      obtain ⟨c₁, hmove, hc₁, hholds, hframe⟩ :=
        moveChain_eq h hseg hnds (fun s hs => hnew s (by simp [hs])) (hfuel slots (by simp))
      have hsegs₁ : List.Forall₂ (fun l slots => c₁.Segment l slots none) heads chains := by
        rw [List.forall₂_iff_zip] at hothers ⊢
        refine ⟨hothers.1, fun {l other} hmem => (hothers.2 hmem).congr fun u hu => ?_⟩
        have hflat : u ∈ chains.flatten :=
          List.mem_flatten.mpr ⟨other, (List.of_mem_zip hmem).2, hu⟩
        exact hframe u fun hs => hdisjoint u hs u hflat rfl
      have hnew₁ : ∀ u ∈ chains.flatten, ¬ (P u ∨ u ∈ slots) := by
        rintro u hu (hp | hs)
        · exact hnew u (by simp only [List.flatten_cons, List.mem_append, hu, or_true]) hp
        · exact hdisjoint u hs u hu rfl
      obtain ⟨c₂, hrest, hc₂, hholds₂⟩ :=
        ih hholds hsegs₁ hndc hnew₁ fun slots hs => hfuel slots (by simp [hs])
      refine ⟨c₂, by rw [List.foldlM_cons, hmove, ok_bind, hrest], hc₁.trans hc₂, ?_⟩
      simpa [or_assoc] using hholds₂

/-- The space that a resize asks for. -/
def space (capacity : Nat) : List Reservation := ⟨.buckets, capacity, 4⟩ :: Arena.space 16 capacity

/-- The capacity is allowed, and its space is granted. -/
def Admits (c : Chains) (capacity : Nat) (grants : Allocator) : Prop :=
  capacity ≤ c.maxCapacity ∧ ∀ r ∈ space capacity, grants r = true

/-- The limit that a refused resize names. -/
def ceiling (c : Chains) (capacity : Nat) : Nat :=
  if c.maxCapacity < capacity then c.maxCapacity else c.capacity

/-- The chains `c'` are `c` with a larger capacity. -/
structure Resized (c : Chains) (capacity : Nat) (grants : Allocator) (c' : Chains) : Prop where
  sound : c'.Sound
  hash : ∀ s, c'.hash? s = c.hash? s
  slots : ∃ links, c.links.grow 16 capacity grants = .ok links ∧ links.SameSlots c'.links
  capacity : c'.capacity = capacity
  maxCapacity : c'.maxCapacity = c.maxCapacity
  loadFactor : c'.loadFactor = c.loadFactor
  limited : c'.Limited
  resizes : c'.resizes = c.resizes + 1

private theorem Resized.size {capacity : Nat} {grants : Allocator}
    (h : c.Resized capacity grants c') :
    c'.size = c.size := by
  obtain ⟨links, hgrow, hslots⟩ := h.slots
  rw [Chains.size, Chains.size, hslots.size, (Arena.grow_capacity hgrow).2.2.2.1]

private theorem Resized.hasFree {capacity : Nat} {grants : Allocator}
    (h : c.Resized capacity grants c') (hc : c.Sound) (hlt : c.capacity < capacity) :
    c'.links.hasFree = true := by
  obtain ⟨links, hgrow, hslots⟩ := h.slots
  -- the slots that a resize adds lie above the frontier
  have hfrontier : c'.links.frontier < c'.links.capacity := by
    rw [hslots.frontier, (Arena.grow_capacity hgrow).2.2.1, h.sound.capacity_eq, h.capacity]
    exact hc.links.frontier_le.trans_lt (hc.capacity_eq.trans_lt hlt)
  simp [Arena.hasFree, hfrontier]

private theorem fill_eq (h : c.Sound) {capacity : Nat} {grants : Allocator}
    {links : Arena ChainCell} (hle : c.capacity ≤ capacity)
    (hgrow : c.links.grow 16 capacity grants = .ok links) :
    ∃ c', c.buckets.toList.foldlM (moveChain capacity)
          { c with buckets := Array.replicate capacity none, links } = .ok c' ∧
      c.Resized capacity grants
        { c' with limit := limitFor capacity c.loadFactor, resizes := c.resizes + 1 } := by
  obtain ⟨hcap, -, -, -, -, hget⟩ := Arena.grow_capacity hgrow
  obtain ⟨chains, hcovers, hsegs⟩ := covers h
  let emptied : Chains := { c with buckets := Array.replicate capacity none, links }
  have hhash : ∀ s, emptied.hash? s = c.hash? s := fun s => by simp [hash?, emptied, hget]
  have hlinks : links.capacity = capacity := by rw [hcap, h.capacity_eq, max_eq_right hle]
  have hsize : emptied.capacity = capacity := by simp [emptied, Chains.capacity]
  have hsound := Arena.grow_sound h.links hgrow
  have hholds : emptied.Holds fun _ => False :=
    .of_empty hsound (hlinks.trans hsize.symm) (hsize.symm ▸ h.pos.trans_le hle)
      (fun b _ => getD_replicate capacity b) fun s hs => hs.elim
  have hsegs' :
      List.Forall₂ (fun l slots => emptied.Segment l slots none) c.buckets.toList chains :=
    hsegs.imp fun l slots hseg => hseg.congr fun s _ => hget (some s)
  have hfuel : ∀ slots ∈ chains, slots.length ≤ capacity := by
    intro slots hslots
    rw [← hlinks]
    refine (Arena.length_le_size hsound (hcovers.nodup.sublist (List.sublist_flatten_of_mem hslots))
      fun s hs => ?_).trans (Arena.size_le_capacity hsound)
    rw [Arena.contains_congr (hget (some s))]
    exact (hcovers.live s).mp (List.mem_flatten.mpr ⟨slots, hslots, hs⟩)
  obtain ⟨c', hrun, hc', hfull⟩ :=
    moveChains_eq hholds hsegs' hcovers.nodup (fun _ _ => not_false) hfuel
  have hsound' : c'.Sound := by
    refine ⟨hfull.links, hfull.capacity_eq, hfull.pos, fun b hb => ?_⟩
    obtain ⟨chain, hseg, hnd, hmem⟩ := hfull.chained b hb
    refine ⟨chain, hseg, hnd, fun s => (hmem s).trans (and_congr_left ?_)⟩
    rintro ⟨hash, hs, -⟩
    have : s ∈ chains.flatten := by
      rw [hcovers.live, contains, contains_iff_hash?]
      exact ⟨hash, by rw [← hhash, ← hc'.hash, hs]⟩
    simp [this]
  have hcap' : c'.capacity = capacity := hc'.capacity.trans hsize
  refine ⟨c', hrun, ⟨hsound'.congr rfl rfl, fun s => (hc'.hash s).trans (hhash s),
    ⟨links, hgrow, hc'.slots⟩, hcap', hc'.maxCapacity, hc'.loadFactor, ?_, rfl⟩⟩
  show limitFor capacity c.loadFactor = limitFor c'.capacity c'.loadFactor
  rw [hcap', hc'.loadFactor]

/-- A resize is refused, or it moves every slot to a chain of the larger table. -/
theorem resize_cases (h : c.Sound) {capacity : Nat} (hlt : c.capacity < capacity)
    (grants : Allocator) :
    (c.resize capacity grants = .ok (.error (.full capacity (c.ceiling capacity))) ∧
        ¬ c.Admits capacity grants) ∨
      (∃ c', c.resize capacity grants = .ok (.ok c') ∧ c.Resized capacity grants c') ∧
        c.Admits capacity grants := by
  by_cases hmax : c.maxCapacity < capacity
  · exact .inl ⟨by simp [resize, ceiling, hmax], fun hadmits => not_le.mpr hmax hadmits.1⟩
  cases hbuckets : grants ⟨.buckets, capacity, 4⟩ with
  | false =>
      refine .inl ⟨by simp [resize, ceiling, hmax, hbuckets], fun hadmits => ?_⟩
      simpa [hbuckets] using hadmits.2 _ (List.mem_cons_self ..)
  | true =>
      rcases Arena.grow_cases c.links 16 (h.capacity_eq.trans_lt hlt) grants with
        ⟨hgrow, r, hr, hrefused⟩ | ⟨⟨links, hgrow⟩, hgranted⟩
      · refine .inl ⟨by simp [resize, ceiling, hmax, hbuckets, hgrow, h.capacity_eq],
          fun hadmits => ?_⟩
        simpa [hrefused] using hadmits.2 r (List.mem_cons_of_mem _ hr)
      · obtain ⟨c', hrun, hresized⟩ := fill_eq h hlt.le hgrow
        refine .inr ⟨⟨_, by simp [resize, hmax, hbuckets, hgrow, hrun], hresized⟩,
          not_lt.mp hmax, ?_⟩
        exact List.forall_mem_cons.mpr ⟨hbuckets, hgranted⟩

/-- An insert is refused, or it gives a slot that was free. -/
theorem insert_cases (h : c.Sound) (hlimit : c.Limited) (hmax : c.capacity ≤ c.maxCapacity)
    (hslots : c.maxCapacity ≤ maxSlots) (hash : UInt64) (grants : Allocator) :
    (∃ capacity,
        c.insert hash grants = .ok (.error (.full capacity (c.ceiling capacity)), c) ∧
        c.nextCapacity? = some capacity ∧ ¬ c.Admits capacity grants) ∨
      ∃ s c', c.insert hash grants = .ok (.ok s, c') ∧ c.Adds c' s hash ∧
        c'.capacity = c.nextCapacity?.getD c.capacity ∧ c'.capacity ≤ c.maxCapacity ∧
        (c'.resizes = c.nextCapacity?.elim c.resizes fun _ => c.resizes + 1) ∧
        ∀ capacity, c.nextCapacity? = some capacity → c.Admits capacity grants := by
  cases hnext : c.nextCapacity? with
  | none =>
      have hfree : c.links.hasFree = true := by
        by_contra hfull
        simp [nextCapacity?, hfull] at hnext
      obtain ⟨s, c', hrun, hadds, hcap, hresizes⟩ := link_eq h hlimit hfree hash
      exact .inr ⟨s, c', by simp [insert, hnext, hrun], hadds, hcap, hcap.trans_le hmax, hresizes,
        by simp⟩
  | some capacity =>
      have hlt := lt_of_nextCapacity? h hlimit (hmax.trans hslots) hnext
      rcases resize_cases h hlt grants with ⟨hrun, hr⟩ | ⟨⟨grown, hrun, hresized⟩, hadmits⟩
      · exact .inl ⟨capacity, by simp [insert, hnext, hrun], rfl, hr⟩
      · obtain ⟨s, c', hlink, hadds, hcap, hresizes⟩ :=
          link_eq hresized.sound hresized.limited (hresized.hasFree h hlt) hash
        have hcap' : c'.capacity = capacity := hcap.trans hresized.capacity
        refine .inr ⟨s, c', by simp [insert, hnext, hrun, hlink], ⟨hadds.sound, ?_, ?_, ?_, ?_, ?_,
          hadds.limited⟩, hcap', hcap'.trans_le hadmits.1, hresizes.trans hresized.resizes,
          by rintro _ ⟨⟩; exact hadmits⟩
        · rw [← hresized.hash]
          exact hadds.fresh
        · intro u
          rw [hadds.hash, hresized.hash]
        · rw [hadds.size, hresized.size]
        · rw [hadds.maxCapacity, hresized.maxCapacity]
        · rw [hadds.loadFactor, hresized.loadFactor]

end Chains
end TableIndex
