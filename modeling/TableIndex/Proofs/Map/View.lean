import TableIndex.Proofs.Map.Verification

/-!
# What a map shows

A sound map answers every question about itself. Where recency is kept, the key that it names as the
one touched the longest ago stands in the live slot with the least stamp.
-/

namespace TableIndex.Map

variable {κ ν : Type} {m : Map κ ν} {s : Slot} {key : Datum κ}

private theorem foldl_older (first : Slot × Nat) (rest : List (Slot × Nat)) :
    rest.foldl (fun best next => if next.2 < best.2 then next else best) first ∈ first :: rest ∧
      ∀ x ∈ first :: rest,
        (rest.foldl (fun best next => if next.2 < best.2 then next else best) first).2 ≤ x.2 := by
  induction rest generalizing first with
  | nil => simp
  | cons next rest ih =>
      rw [List.foldl_cons]
      by_cases hnext : next.2 < first.2
      · rw [if_pos hnext]
        obtain ⟨hmem, hle⟩ := ih next
        refine ⟨List.mem_cons_of_mem _ hmem, fun x hx => ?_⟩
        rcases List.mem_cons.mp hx with rfl | hx
        · exact (hle next (by simp)).trans hnext.le
        · exact hle x hx
      · rw [if_neg hnext]
        obtain ⟨hmem, hle⟩ := ih first
        refine ⟨List.cons_subset_cons _ (List.subset_cons_self ..) hmem, fun x hx => ?_⟩
        rcases List.mem_cons.mp hx with rfl | hx
        · exact hle x (by simp)
        · rcases List.mem_cons.mp hx with rfl | hx
          · exact (hle first (by simp)).trans (not_lt.mp hnext)
          · exact hle x (by simp [hx])

private theorem oldest_eq_none {stamped : List (Slot × Nat)} : oldest stamped = none ↔ stamped =
    [] := by
  cases stamped <;> simp [oldest]

private theorem oldest_eq_some {stamped : List (Slot × Nat)} (h : oldest stamped = some s) :
    ∃ n, (s, n) ∈ stamped ∧ ∀ x ∈ stamped, n ≤ x.2 := by
  cases stamped with
  | nil => cases h
  | cons first rest =>
      obtain rfl := Option.some.inj h
      exact ⟨_, foldl_older first rest⟩

theorem oldest_map {f : Nat → Nat} (hf : ∀ a b, f a < f b ↔ a < b) (stamped : List (Slot × Nat)) :
    oldest (stamped.map (Prod.map id f)) = oldest stamped := by
  cases stamped with
  | nil => rfl
  | cons first rest =>
      simp only [oldest, List.map_cons]
      induction rest generalizing first with
      | nil => rfl
      | cons next rest ih =>
          simp only [List.map_cons, List.foldl_cons, Prod.map_snd, hf]
          split
          · exact ih next
          · exact ih first

/-- The live slot with the least stamp, if recency is kept and a slot is live. -/
def leastStamped (m : Map κ ν) : Link :=
  m.recency.bind fun r => oldest (m.chains.inUse.map fun s => (s, r.mark s))

private theorem leastStamped_mem (h : m.leastStamped = some s) : s ∈ m.chains.inUse := by
  obtain ⟨r, -, holdest⟩ := Option.bind_eq_some_iff.mp h
  obtain ⟨n, hmem, -⟩ := oldest_eq_some holdest
  obtain ⟨u, hu, heq⟩ := List.mem_map.mp hmem
  obtain rfl : u = s := congrArg Prod.fst heq
  exact hu

theorem Sound.leastRecent_eq (h : m.Sound) :
    m.leastRecent = .ok (m.leastStamped.bind m.entries.key) := by
  have hkey : ∀ s, m.leastStamped = some s → m.entries.keyAt (some s) = .ok (m.entries.key s) :=
    fun s hs => Entries.keyAt_eq h.room (h.lt_of_mem_inUse (leastStamped_mem hs))
  unfold leastRecent
  unfold leastStamped at hkey ⊢
  cases hr : m.recency with
  | none => rfl
  | some r =>
      have hstamps : (m.chains.inUse.mapM fun s => do return (s, ← r.stamp (some s))) =
          .ok (m.chains.inUse.map fun s => (s, r.mark s)) := by
        refine mapM_of_forall fun s hs => ?_
        rw [Recency.stamp_eq ((h.lt_of_mem_inUse hs).trans_le (h.stamped r hr))]
        rfl
      rw [hr] at hkey
      simp only [Option.bind_some] at hkey ⊢
      rw [hstamps, ok_bind]
      cases holdest : oldest (m.chains.inUse.map fun s => (s, r.mark s)) with
      | none => rfl
      | some s => exact hkey s holdest

theorem Sound.leastRecent_cases (h : m.Sound) (hclock : m.clock.isSome = true) :
    m.leastRecent = .ok none ∧ m.size = 0 ∨
      ∃ s key, m.leastRecent = .ok (some key) ∧ m.Holds s key ∧
        ∀ u key', m.Holds u key' → ∀ n k, m.mark s = some n → m.mark u = some k → n ≤ k := by
  obtain ⟨r, hr⟩ : ∃ r, m.recency = some r := by
    rwa [clock, Option.isSome_map, Option.isSome_iff_exists] at hclock
  have hleast : m.leastStamped = oldest (m.chains.inUse.map fun s => (s, r.mark s)) := by
    rw [leastStamped, hr]
    rfl
  rw [h.leastRecent_eq]
  cases holdest : m.leastStamped with
  | none =>
      rw [hleast, oldest_eq_none, List.map_eq_nil_iff] at holdest
      refine .inl ⟨rfl, ?_⟩
      rw [size, Chains.size, ← Arena.length_inUse h.chains.links]
      exact congrArg List.length holdest
  | some s =>
      obtain ⟨hash, hlive⟩ := h.mem_inUse.mp (leastStamped_mem holdest)
      obtain ⟨key, hkey, -⟩ := h.hashed s hash hlive
      refine .inr ⟨s, key, by rw [Option.bind_some, hkey], ⟨⟨hash, hlive⟩, hkey⟩, ?_⟩
      obtain ⟨n, hmem, hle⟩ := oldest_eq_some (hleast ▸ holdest)
      obtain ⟨v, -, hv⟩ := List.mem_map.mp hmem
      obtain ⟨rfl, rfl⟩ := Prod.mk.inj hv
      intro u key' hu n k hn hk
      have hmark := hle (u, r.mark u) (List.mem_map.mpr ⟨u, h.mem_inUse.mpr hu.1, rfl⟩)
      rw [mark, hr] at hn hk
      cases hn
      cases hk
      exact hmark

/-- Everything that a map shows of itself without being asked for a key. -/
structure View (κ ν : Type) where
  size : Nat
  capacity : Nat
  load : UInt32
  resizes : Nat
  entries : List (Datum κ × Option (Datum ν))
  keys : List (Datum κ)
  values : List (Datum ν)
  /-- The stamp of every slot, if recency is kept. -/
  stamps : Option (List Nat)
  leastRecent : Option (Datum κ)
  verified : Except Error Unit

def view (m : Map κ ν) : Checked (View κ ν) := do
  return {
    size := m.size
    capacity := m.capacity
    load := m.chains.load
    resizes := m.resizes
    entries := ← m.toList
    keys := ← m.keys
    values := ← m.values
    stamps := m.recency.map fun r => r.stamps.toList
    leastRecent := ← m.leastRecent
    verified := ← m.verify }

private theorem exists_mapM {α β : Type} {f : α → Checked β} {xs : List α}
    (h : ∀ x ∈ xs, ∃ y, f x = .ok y) : ∃ ys, xs.mapM f = .ok ys := by
  induction xs with
  | nil => exact ⟨[], rfl⟩
  | cons x xs ih =>
      obtain ⟨y, hy⟩ := h x (by simp)
      obtain ⟨ys, hys⟩ := ih fun z hz => h z (by simp [hz])
      exact ⟨y :: ys, by rw [List.mapM_cons, hy, ok_bind, hys]; rfl⟩

theorem Sound.view_eq (h : m.Sound) : ∃ view, m.view = .ok view ∧ view.verified = .ok () := by
  obtain ⟨entries, hentries⟩ := exists_mapM fun s hs => ⟨_, h.entryAt_eq hs⟩
  obtain ⟨keys, hkeys⟩ := exists_mapM fun s hs =>
    ⟨_, Entries.keyAt_eq h.room (h.lt_of_mem_inUse hs)⟩
  obtain ⟨values, hvalues⟩ := exists_mapM fun s hs =>
    ⟨_, Entries.valueAt_eq h.room (h.lt_of_mem_inUse hs)⟩
  refine ⟨{
    size := m.size
    capacity := m.capacity
    load := m.chains.load
    resizes := m.resizes
    entries := entries.filterMap id
    keys := keys.filterMap id
    values := values.filterMap id
    stamps := m.recency.map fun r => r.stamps.toList
    leastRecent := m.leastStamped.bind m.entries.key
    verified := .ok () }, ?_, rfl⟩
  simp only [view, toList, Map.keys, Map.values, hentries, hkeys, hvalues, h.leastRecent_eq,
    verify_eq h, ok_bind, pure_eq_ok]

variable [DecidableEq κ]

theorem Sound.find_of_holds (h : m.Sound) (hs : m.Holds s key) : m.find key = .ok (some s) := by
  rcases Map.find_cases h key with ⟨u, hfind, hu⟩ | ⟨-, hnone⟩
  · rw [hfind, h.distinct u s key hu hs]
  · exact absurd hs (hnone s)

/-- The stamp of a key is that of its slot. -/
theorem Sound.stamp_of_holds (h : m.Sound) (hs : m.Holds s key) :
    m.stamp key = .ok (m.mark s) := by
  unfold stamp mark
  cases hr : m.recency with
  | none => rfl
  | some r =>
      have hlt := (h.lt_capacity hs.1.choose_spec).trans_le (h.stamped r hr)
      simp only [h.find_of_holds hs, ok_bind, Recency.stamp_eq hlt, pure_eq_ok, Option.map_some]

theorem stamp_of_absent (hfind : m.find key = .ok none) : m.stamp key = .ok none := by
  unfold stamp
  cases m.recency with
  | none => rfl
  | some r => simp only [hfind, ok_bind, pure_eq_ok]

theorem Sound.stamp_of_key (h : m.Sound) (key : Datum κ) : ∃ stamp, m.stamp key = .ok stamp := by
  rcases Map.find_cases h key with ⟨s, -, hs⟩ | ⟨hfind, -⟩
  · exact ⟨m.mark s, h.stamp_of_holds hs⟩
  · exact ⟨none, stamp_of_absent hfind⟩

end TableIndex.Map
