import Mathlib.Data.List.Forall2
import TableIndex.Map.Chains
import TableIndex.Proofs.Slot.Arena

/-!
# The chains of a hash table

Every live slot stands once in the chain of the bucket that its hash falls into, and no other slot
stands in any chain. While a table is resized, this holds of the slots that have been moved.
-/

namespace TableIndex

private theorem mapM_of_forall₂ {α β : Type} {f : α → Checked β} {xs : List α} {ys : List β}
    (h : List.Forall₂ (fun x y => f x = .ok y) xs ys) : xs.mapM f = .ok ys := by
  induction h with
  | nil => rfl
  | cons hxy _ ih => rw [List.mapM_cons, hxy, ok_bind, ih]; rfl

theorem mapM_of_forall {α β : Type} {f : α → Checked β} {g : α → β} {xs : List α}
    (h : ∀ x ∈ xs, f x = .ok (g x)) : xs.mapM f = .ok (xs.map g) := by
  apply mapM_of_forall₂
  rw [List.forall₂_map_right_iff, List.forall₂_same]
  exact h

private theorem filterAuxM_of_forall {α : Type} {f : α → Checked Bool} {p : α → Bool}
    {xs : List α} (h : ∀ x ∈ xs, f x = .ok (p x)) (acc : List α) :
    List.filterAuxM f xs acc = .ok ((xs.filter p).reverse ++ acc) := by
  induction xs generalizing acc with
  | nil => rfl
  | cons x xs ih =>
      rw [List.filterAuxM, h x (by simp), ok_bind, ih fun y hy => h y (by simp [hy])]
      cases hp : p x <;> simp [hp]

private theorem filterM_of_forall {α : Type} {f : α → Checked Bool} {p : α → Bool} {xs : List α}
    (h : ∀ x ∈ xs, f x = .ok (p x)) : xs.filterM f = .ok (xs.filter p) := by
  rw [List.filterM, filterAuxM_of_forall h]
  simp

namespace Chains

/-- The chain runs from the link `l` through these slots and on to the link `m`. -/
def Segment (c : Chains) : Link → List Slot → Link → Prop
  | l, [], m => l = m
  | l, s :: rest, m =>
      l = some s ∧ ∃ cell, c.links.get? (some s) = some cell ∧ Segment c cell.next rest m

/-- The hash of a live slot. -/
def hash? (c : Chains) (s : Slot) : Option UInt64 :=
  (c.links.get? (some s)).map ChainCell.hash

/-- The slots with `P`, as far as they are live, stand once in the chain of their bucket each, and
the chains hold no other. -/
structure Holds (c : Chains) (P : Slot → Prop) : Prop where
  links : c.links.Sound
  capacity_eq : c.links.capacity = c.capacity
  pos : 0 < c.capacity
  chained : ∀ b < c.capacity, ∃ slots, c.Segment (c.buckets.getD b none) slots none ∧
    slots.Nodup ∧ ∀ s, s ∈ slots ↔ P s ∧ ∃ h, c.hash? s = some h ∧ Hash.bucket h c.mask = b

/-- The chains hold every live slot. -/
def Sound (c : Chains) : Prop := c.Holds fun _ => True

variable {c : Chains} {P : Slot → Prop}

theorem Segment.congr {c' : Chains} {l m : Link} {slots : List Slot} (h : c.Segment l slots m)
    (hsame : ∀ s ∈ slots, c'.links.get? (some s) = c.links.get? (some s)) :
    c'.Segment l slots m := by
  induction slots generalizing l with
  | nil => exact h
  | cons s slots ih =>
      obtain ⟨hl, cell, hs, hrest⟩ := h
      refine ⟨hl, cell, (hsame s (by simp)).trans hs, ih hrest ?_⟩
      exact fun u hu => hsame u (by simp [hu])

theorem segment_append {l m : Link} {a b : List Slot} :
    c.Segment l (a ++ b) m ↔ ∃ k, c.Segment l a k ∧ c.Segment k b m := by
  induction a generalizing l with
  | nil => simp [Segment]
  | cons s a ih =>
      simp only [List.cons_append, Segment, ih]
      constructor
      · rintro ⟨hl, cell, hs, k, ha, hb⟩
        exact ⟨k, ⟨hl, cell, hs, ha⟩, hb⟩
      · rintro ⟨k, ⟨hl, cell, hs, ha⟩, hb⟩
        exact ⟨hl, cell, hs, k, ha, hb⟩

theorem hash?_eq_some {s : Slot} {h : UInt64} :
    c.hash? s = some h ↔ ∃ cell, c.links.get? (some s) = some cell ∧ cell.hash = h :=
  Option.map_eq_some_iff

theorem hashAt_of_hash? {s : Slot} {h : UInt64} (hs : c.hash? s = some h) :
    c.hashAt (some s) = .ok h := by
  obtain ⟨cell, hcell, rfl⟩ := hash?_eq_some.mp hs
  simp [hashAt, Arena.fetch_of_get? hcell]

theorem mapM_hashAt {slots : List Slot} (h : ∀ s ∈ slots, ∃ hash, c.hash? s = some hash) :
    (slots.mapM fun s => c.hashAt (some s)) = .ok (slots.filterMap c.hash?) := by
  induction slots with
  | nil => rfl
  | cons s slots ih =>
      obtain ⟨hash, hs⟩ := h s (by simp)
      have hrest := ih fun u hu => h u (by simp [hu])
      rw [List.mapM_cons, hashAt_of_hash? hs, ok_bind, hrest, ok_bind,
        List.filterMap_cons_some hs]
      rfl

theorem contains_iff_hash? {s : Slot} :
    c.links.contains (some s) = true ↔ ∃ h, c.hash? s = some h := by
  rw [Arena.contains_iff]
  constructor
  · rintro ⟨cell, hcell⟩
    exact ⟨cell.hash, hash?_eq_some.mpr ⟨cell, hcell, rfl⟩⟩
  · rintro ⟨h, hs⟩
    obtain ⟨cell, hcell, -⟩ := hash?_eq_some.mp hs
    exact ⟨cell, hcell⟩

theorem hash?_eq_none {s : Slot} : c.hash? s = none ↔ c.contains (some s) = false := by
  rw [contains, Arena.contains, hash?, Option.map_eq_none_iff, Option.isSome_eq_false_iff,
    Option.isNone_iff_eq_none]

theorem walk_segment {l : Link} {slots : List Slot} {fuel : Nat} (h : c.Segment l slots none)
    (hfuel : slots.length ≤ fuel) : c.walk fuel l = .ok slots := by
  induction slots generalizing l fuel with
  | nil =>
      obtain rfl : l = none := h
      cases fuel <;> rfl
  | cons s slots ih =>
      obtain ⟨fuel, rfl⟩ : ∃ f, fuel = f + 1 := ⟨fuel - 1, by simp at hfuel; omega⟩
      obtain ⟨rfl, cell, hs, hrest⟩ := h
      simp only [walk, next, Arena.fetch_of_get? hs, ok_bind, pure_eq_ok,
        ih hrest (by simpa using hfuel)]

theorem bucket_lt (h : c.Holds P) (hash : UInt64) : Hash.bucket hash c.mask < c.capacity := by
  have hle : Hash.bucket hash c.mask ≤ c.mask := Nat.and_le_right
  have := h.pos
  simp only [mask] at hle ⊢
  omega

theorem chainFrom_eq (h : c.Holds P) {b : Nat} (hb : b < c.capacity) :
    ∃ slots, c.chainFrom (c.buckets.getD b none) = .ok slots ∧
      c.Segment (c.buckets.getD b none) slots none ∧ slots.Nodup ∧
      ∀ s, s ∈ slots ↔ P s ∧ ∃ h, c.hash? s = some h ∧ Hash.bucket h c.mask = b := by
  obtain ⟨slots, hseg, hnd, hmem⟩ := h.chained b hb
  refine ⟨slots, walk_segment hseg ?_, hseg, hnd, hmem⟩
  have hle := Arena.length_le_size h.links hnd fun s hs =>
    contains_iff_hash?.mpr ⟨_, ((hmem s).mp hs).2.choose_spec.1⟩
  exact hle.trans (Arena.size_le_capacity h.links)

/-- The chain of a hash holds the slots with this hash. -/
theorem chain_eq (h : c.Sound) (hash : UInt64) :
    ∃ slots, c.chain hash = .ok slots ∧ slots.Nodup ∧ ∀ s, s ∈ slots ↔ c.hash? s = some hash := by
  obtain ⟨slots, hrun, -, hnd, hmem⟩ := chainFrom_eq h (bucket_lt h hash)
  have hfilter : (slots.filterM fun s => do return (← c.hashAt (some s)) == hash) =
      .ok (slots.filter fun s => c.hash? s == some hash) := by
    refine filterM_of_forall fun s hs => ?_
    obtain ⟨-, h', hs', -⟩ := (hmem s).mp hs
    rw [hashAt_of_hash? hs', hs']
    rfl
  refine ⟨slots.filter fun s => c.hash? s == some hash, ?_, hnd.filter _, ?_⟩
  · rw [chain, head, hrun, ok_bind, hfilter]
  · intro s
    rw [List.mem_filter, hmem, beq_iff_eq]
    exact ⟨fun hs => hs.2, fun hs => ⟨⟨trivial, hash, hs, rfl⟩, hs⟩⟩

/-- Followed from all bucket heads, the chains are these: they hold every live slot once, each in
the bucket of its hash, and no free one. -/
structure Covers (c : Chains) (chains : List (List Slot)) : Prop where
  walked : c.buckets.toList.mapM c.chainFrom = .ok chains
  nodup : chains.flatten.Nodup
  live : ∀ s, s ∈ chains.flatten ↔ c.contains (some s) = true
  placed : ∀ b slots, chains[b]? = some slots → ∀ s ∈ slots,
    ∃ hash, c.hashAt (some s) = .ok hash ∧ Hash.bucket hash c.mask = b

private theorem buckets_toList (c : Chains) :
    c.buckets.toList = (List.range c.capacity).map fun b => c.buckets.getD b none := by
  apply List.ext_getElem
  · simp [capacity]
  · intro b hb _
    rw [Array.length_toList] at hb
    simp [hb]

/-- Sound chains can be followed to their ends, and hold the live slots in this way. -/
theorem covers (h : c.Sound) :
    ∃ chains, c.Covers chains ∧
      List.Forall₂ (fun l slots => c.Segment l slots none) c.buckets.toList chains := by
  have hchain : ∀ b, ∃ slots, b < c.capacity →
      c.chainFrom (c.buckets.getD b none) = .ok slots ∧
        c.Segment (c.buckets.getD b none) slots none ∧ slots.Nodup ∧
        ∀ s, s ∈ slots ↔ ∃ h, c.hash? s = some h ∧ Hash.bucket h c.mask = b := by
    intro b
    by_cases hb : b < c.capacity
    · obtain ⟨slots, hrun, hseg, hnd, hmem⟩ := chainFrom_eq h hb
      exact ⟨slots, fun _ => ⟨hrun, hseg, hnd, by simpa using hmem⟩⟩
    · exact ⟨[], fun h => absurd h hb⟩
  choose chain hchain using hchain
  have hmem : ∀ b s, b < c.capacity →
      (s ∈ chain b ↔ ∃ h, c.hash? s = some h ∧ Hash.bucket h c.mask = b) :=
    fun b s hb => (hchain b hb).2.2.2 s
  refine ⟨(List.range c.capacity).map chain, ⟨?_, ?_, fun s => ?_, fun b slots hb s hs => ?_⟩, ?_⟩
  · rw [buckets_toList]
    apply mapM_of_forall₂
    rw [List.forall₂_map_left_iff, List.forall₂_map_right_iff, List.forall₂_same]
    exact fun b hb => (hchain b (List.mem_range.mp hb)).1
  · rw [← List.flatMap_def, List.nodup_flatMap]
    refine ⟨fun b hb => (hchain b (List.mem_range.mp hb)).2.2.1, ?_⟩
    -- a slot falls into one bucket only
    refine List.nodup_range.pairwise_of_forall_ne fun b hb b' hb' hne s hs hs' => hne ?_
    obtain ⟨h₁, hlive, hbucket⟩ := (hmem b s (List.mem_range.mp hb)).mp hs
    obtain ⟨h₂, hlive', hbucket'⟩ := (hmem b' s (List.mem_range.mp hb')).mp hs'
    obtain rfl : h₁ = h₂ := Option.some.inj (hlive.symm.trans hlive')
    exact hbucket.symm.trans hbucket'
  · rw [← List.flatMap_def, List.mem_flatMap, contains, contains_iff_hash?]
    constructor
    · rintro ⟨b, hb, hs⟩
      obtain ⟨hash, hlive, -⟩ := (hmem b s (List.mem_range.mp hb)).mp hs
      exact ⟨hash, hlive⟩
    · rintro ⟨hash, hlive⟩
      have hb := bucket_lt h hash
      exact ⟨_, List.mem_range.mpr hb, (hmem _ s hb).mpr ⟨hash, hlive, rfl⟩⟩
  · rw [List.getElem?_map, Option.map_eq_some_iff] at hb
    obtain ⟨b', hb, rfl⟩ := hb
    obtain ⟨hlt, rfl⟩ : b < c.capacity ∧ b = b' := by
      simpa [List.getElem?_eq_some_iff] using hb
    obtain ⟨hash, hlive, hbucket⟩ := (hmem b s hlt).mp hs
    exact ⟨hash, hashAt_of_hash? hlive, hbucket⟩
  · rw [buckets_toList, List.forall₂_map_left_iff, List.forall₂_map_right_iff,
      List.forall₂_same]
    exact fun b hb => (hchain b (List.mem_range.mp hb)).2.1

end Chains
end TableIndex
