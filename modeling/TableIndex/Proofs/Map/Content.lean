import Mathlib.Data.Finmap
import TableIndex.Proofs.Map.Soundness

/-!
# The bindings in a map

A sound map represents the finite map from the keys in its live slots to the values beside them. A
change of one slot changes one binding.
-/

namespace TableIndex.Map

variable {κ ν : Type} {m m' : Map κ ν} {s : Slot} {key : Datum κ}

/-- The map `m'` is `m` but for one slot. -/
structure Changes (m m' : Map κ ν) (s : Slot) : Prop where
  fits : m'.Fits
  config : m'.config = m.config
  hasher : m'.hasher = m.hasher
  hash : ∀ u, u ≠ s → m'.chains.hash? u = m.chains.hash? u
  key : ∀ u, u ≠ s → m'.entries.key u = m.entries.key u
  value : ∀ u, u ≠ s → m'.entries.value u = m.entries.value u

namespace Changes

private theorem hashOf_eq (hc : m.Changes m' s) (key : Datum κ) : m'.hashOf key = m.hashOf key := by
  cases key <;> simp only [Map.hashOf, hc.hasher]

private theorem holds_iff (hc : m.Changes m' s) {u : Slot} (hu : u ≠ s) :
    m'.Holds u key ↔ m.Holds u key := by
  rw [Holds, Holds, hc.hash u hu, hc.key u hu]

private theorem sound (hc : m.Changes m' s) (h : m.Sound)
    (hashed : ∀ hash, m'.chains.hash? s = some hash → ∃ key, m'.entries.key s = some key ∧
      key.representation = m.config.key ∧ m.hashOf key = hash)
    (distinct : ∀ u key, m'.Holds s key → m.Holds u key → u = s)
    (emptied : m'.chains.hash? s = none → m'.entries.value s = m.config.emptyValue) :
    m'.Sound where
  toFits := hc.fits
  hashed := by
    intro u hash hu
    simp only [hc.config, hc.hashOf_eq]
    by_cases hus : u = s
    · subst hus
      exact hashed hash hu
    · rw [hc.key u hus]
      exact h.hashed u hash (hc.hash u hus ▸ hu)
  distinct := by
    intro u v key hu hv
    by_cases hus : u = s
    · by_cases hvs : v = s
      · rw [hus, hvs]
      · exact hus.trans (distinct v key (hus ▸ hu) ((hc.holds_iff hvs).mp hv)).symm
    · by_cases hvs : v = s
      · exact (distinct u key (hvs ▸ hv) ((hc.holds_iff hus).mp hu)).trans hvs.symm
      · exact h.distinct u v key ((hc.holds_iff hus).mp hu) ((hc.holds_iff hvs).mp hv)
  emptied := by
    intro u hu
    rw [hc.config]
    by_cases hus : u = s
    · subst hus
      exact emptied hu
    · rw [hc.value u hus]
      exact h.emptied u (hc.hash u hus ▸ hu)

end Changes

/-- Keys with their values, where there is one. -/
abbrev Bindings (κ ν : Type) := Finmap fun _ : Datum κ => Option (Datum ν)

variable [DecidableEq κ]

/-- A sound map with this configuration holds these bindings and no other. -/
structure Represents (m : Map κ ν) (config : Config) (M : Bindings κ ν) : Prop where
  sound : m.Sound
  config : m.config = config
  lookup : ∀ key value,
    M.lookup key = some value ↔ ∃ s, m.Holds s key ∧ m.entries.value s = value

variable {config : Config} {M : Bindings κ ν}

namespace Represents

theorem lookup_of_holds (h : m.Represents config M) (hs : m.Holds s key) :
    M.lookup key = some (m.entries.value s) := (h.lookup key _).mpr ⟨s, hs, rfl⟩

theorem lookup_eq_none (h : m.Represents config M) :
    M.lookup key = none ↔ ∀ s, ¬ m.Holds s key := by
  rw [Option.eq_none_iff_forall_ne_some]
  constructor
  · exact fun hnone s hs => hnone _ (h.lookup_of_holds hs)
  · intro hnone value hvalue
    obtain ⟨s, hs, -⟩ := (h.lookup key value).mp hvalue
    exact hnone s hs

theorem mem_iff (h : m.Represents config M) : key ∈ M ↔ ∃ s, m.Holds s key := by
  rw [← not_iff_not, ← Finmap.lookup_eq_none, h.lookup_eq_none, not_exists]

theorem like (h : m.Represents config M) (hlike : m.Like m') : m'.Represents config M where
  sound := hlike.sound h.sound
  config := hlike.config.trans h.config
  lookup := by
    intro key value
    simp only [h.lookup, hlike.holds, hlike.value]

theorem of_empty (h : m.Fits) (hfree : ∀ s, m.chains.hash? s = none)
    (hvalue : ∀ s, m.entries.value s = m.config.emptyValue) : m.Represents m.config ∅ := by
  have hnone : ∀ s key, ¬ m.Holds s key := by
    rintro s key ⟨⟨hash, hs⟩, -⟩
    cases (hfree s).symm.trans hs
  refine ⟨⟨h, fun s hash hs => ?_, fun s u key hs => absurd hs (hnone s key), fun s _ => hvalue s⟩,
    rfl, fun key value => ?_⟩
  · cases (hfree s).symm.trans hs
  · rw [Finmap.lookup_empty]
    exact iff_of_false (by simp) fun ⟨s, hs, _⟩ => hnone s key hs

end Represents

theorem Changes.represents_insert (hc : m.Changes m' s) (h : m.Represents config M)
    (hhash : m'.chains.hash? s = some (m.hashOf key)) (hkey : m'.entries.key s = some key)
    (hrep : key.representation = m.config.key) (hslot : ∀ k, m.Holds s k → k = key)
    (hother : ∀ u, m.Holds u key → u = s) :
    m'.Represents config (M.insert key (m'.entries.value s)) := by
  have hholds : ∀ k, m'.Holds s k ↔ k = key := by
    intro k
    rw [Holds, hkey, Option.some_inj]
    exact ⟨fun hk => hk.2.symm, fun hk => ⟨⟨_, hhash⟩, hk.symm⟩⟩
  have hsound : m'.Sound := by
    refine hc.sound h.sound (fun hash hs => ?_) (fun u k hk hu => ?_) fun hs => ?_
    · exact ⟨key, hkey, hrep, Option.some.inj (hhash.symm.trans hs)⟩
    · rw [hholds] at hk
      exact hother u (hk ▸ hu)
    · rw [hhash] at hs
      cases hs
  refine ⟨hsound, hc.config.trans h.config, fun k v => ?_⟩
  by_cases hk : k = key
  · subst hk
    rw [Finmap.lookup_insert, Option.some_inj]
    constructor
    · exact fun hv => ⟨s, (hholds k).mpr rfl, hv⟩
    · rintro ⟨u, hu, rfl⟩
      rw [hsound.distinct u s k hu ((hholds k).mpr rfl)]
  · rw [Finmap.lookup_insert_of_ne _ hk, h.lookup]
    refine exists_congr fun u => ?_
    by_cases hus : u = s
    · subst hus
      refine iff_of_false (fun hu => hk (hslot k hu.1)) fun hu => hk ((hholds k).mp hu.1)
    · rw [hc.holds_iff hus, hc.value u hus]

theorem Changes.represents_erase (hc : m.Changes m' s) (h : m.Represents config M)
    (hs : m.Holds s key) (hfree : m'.chains.hash? s = none)
    (hvalue : m'.entries.value s = m.config.emptyValue) :
    m'.Represents config (M.erase key) := by
  have hholds : ∀ k, ¬ m'.Holds s k := by
    rintro k ⟨⟨hash, hlive⟩, -⟩
    rw [hfree] at hlive
    cases hlive
  refine ⟨hc.sound h.sound (fun hash hs => ?_) (fun u k hk => absurd hk (hholds k)) fun _ => hvalue,
    hc.config.trans h.config, fun k v => ?_⟩
  · rw [hfree] at hs
    cases hs
  · by_cases hk : k = key
    · subst hk
      rw [Finmap.lookup_erase]
      refine iff_of_false (by simp) ?_
      rintro ⟨u, hu, -⟩
      by_cases hus : u = s
      · exact hholds k (hus ▸ hu)
      · exact hus (h.sound.distinct u s k ((hc.holds_iff hus).mp hu) hs)
    · rw [Finmap.lookup_erase_ne hk, h.lookup]
      refine exists_congr fun u => ?_
      by_cases hus : u = s
      · subst hus
        refine iff_of_false (fun hu => hk ?_) fun hu => hholds k hu.1
        exact Option.some.inj (hu.1.2.symm.trans hs.2)
      · rw [hc.holds_iff hus, hc.value u hus]

/-- The map counts and lists these bindings. -/
structure Lists (m : Map κ ν) (M : Bindings κ ν) : Prop where
  size : m.size = M.keys.card
  toList : ∃ entries, m.toList = .ok entries ∧ (entries.map Prod.fst).Nodup ∧
    ∀ key value, (key, value) ∈ entries ↔ M.lookup key = some value

theorem Represents.lists (h : m.Represents config M) : m.Lists M := by
  let entry (s : Slot) := (m.entries.key s).map fun key => (key, m.entries.value s)
  have hrun : m.toList = .ok (m.chains.inUse.filterMap entry) := by
    have hmap : m.chains.inUse.mapM m.entryAt = .ok (m.chains.inUse.map entry) :=
      mapM_of_forall fun s hs => h.sound.entryAt_eq hs
    rw [toList, hmap, ok_bind, pure_eq_ok, List.filterMap_map, Function.id_comp]
  have hkeys : (m.chains.inUse.filterMap entry).map Prod.fst =
      m.chains.inUse.filterMap m.entries.key := by
    rw [List.map_filterMap]
    congr 1
    funext s
    simp [entry, Function.comp_def]
  have hmem : ∀ key, key ∈ m.chains.inUse.filterMap m.entries.key ↔ key ∈ M := by
    intro key
    simp only [List.mem_filterMap, h.sound.mem_inUse, h.mem_iff, Holds]
  have hnodup : (m.chains.inUse.filterMap m.entries.key).Nodup := by
    rw [List.nodup_iff_pairwise_ne, List.pairwise_filterMap]
    refine (Arena.inUse_nodup _).pairwise_of_forall_ne fun s hs u hu hne key hkey key' hkey' => ?_
    rintro rfl
    exact hne (h.sound.distinct s u key ⟨h.sound.mem_inUse.mp hs, hkey⟩
      ⟨h.sound.mem_inUse.mp hu, hkey'⟩)
  constructor
  · have hlength : (m.chains.inUse.filterMap m.entries.key).length = m.chains.inUse.length := by
      rw [List.length_filterMap_eq_countP, List.countP_eq_length]
      intro s hs
      obtain ⟨hash, hlive⟩ := h.sound.mem_inUse.mp hs
      obtain ⟨key, hkey, -⟩ := h.sound.hashed s hash hlive
      rw [hkey]
      rfl
    have hsize : m.size = m.chains.inUse.length :=
      (Arena.length_inUse h.sound.chains.links).symm
    have hset : M.keys = (m.chains.inUse.filterMap m.entries.key).toFinset := by
      ext key
      rw [Finmap.mem_keys, List.mem_toFinset, hmem]
    rw [hset, List.toFinset_card_of_nodup hnodup, hlength, hsize]
  · refine ⟨_, hrun, hkeys ▸ hnodup, fun key value => ?_⟩
    rw [List.mem_filterMap, h.lookup]
    refine exists_congr fun s => ?_
    rw [h.sound.mem_inUse, Holds]
    simp only [entry, Option.map_eq_some_iff, Prod.mk.injEq]
    constructor
    · rintro ⟨hlive, k, hk, rfl, rfl⟩
      exact ⟨⟨hlive, hk⟩, rfl⟩
    · rintro ⟨⟨hlive, hk⟩, rfl⟩
      exact ⟨hlive, key, hk, rfl, rfl⟩

end TableIndex.Map
