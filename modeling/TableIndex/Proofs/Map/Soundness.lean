import TableIndex.Proofs.Map.Space

/-!
# Sound maps

Every live slot of a map holds a key under the hash of this key, no two hold the same key, and a
free slot holds the empty value. With this a search decides whether a key is in the map, and a new
slot has room in every column.
-/

namespace TableIndex.Map

variable {κ ν : Type}

/-- There are stamps for that many slots, if stamps are kept. -/
def Stamped (recency : Option Recency) (n : Nat) : Prop := ∀ r, recency = some r → n ≤ r.capacity

/-- The slot is live and holds the key. -/
def Holds (m : Map κ ν) (s : Slot) (key : Datum κ) : Prop :=
  (∃ hash, m.chains.hash? s = some hash) ∧ m.entries.key s = some key

/-- The parts of a map have the shape that its configuration asks for, and room for every slot. -/
structure Fits (m : Map κ ν) : Prop where
  chains : m.chains.Sound
  limited : m.chains.Limited
  loadFactor : m.chains.loadFactor = m.config.loadFactor
  maxCapacity : m.chains.maxCapacity = m.config.maxCapacity
  capacity_le : m.chains.capacity ≤ m.config.maxCapacity
  maxCapacity_le : m.config.maxCapacity ≤ maxSlots
  key : m.entries.keys.representation = m.config.key
  value : m.entries.values.map Column.representation = m.config.value
  room : m.entries.Room m.chains.capacity
  tracked : m.recency.isSome = m.config.trackAccess
  stamped : Stamped m.recency m.chains.capacity

/-- The value of a key that is added without one. -/
def Config.emptyValue (config : Config) : Option (Datum ν) := config.value.bind Column.empty

structure Sound (m : Map κ ν) : Prop extends m.Fits where
  hashed : ∀ s hash, m.chains.hash? s = some hash → ∃ key, m.entries.key s = some key ∧
    key.representation = m.config.key ∧ m.hashOf key = hash
  distinct : ∀ s u key, m.Holds s key → m.Holds u key → s = u
  emptied : ∀ s, m.chains.hash? s = none → m.entries.value s = m.config.emptyValue

/-- The map `m'` holds what `m` does, with other stamps and more space perhaps. -/
structure Like (m m' : Map κ ν) : Prop where
  config : m'.config = m.config
  chains : m'.chains = m.chains
  hasher : m'.hasher = m.hasher
  entries : m.entries.Like m'.entries
  key : ∀ s, m'.entries.key s = m.entries.key s
  value : ∀ s, m'.entries.value s = m.entries.value s
  tracked : m'.recency.isSome = m.recency.isSome
  stamped : ∀ n, Stamped m.recency n → Stamped m'.recency n

/-- The stamp in a slot, if stamps are kept. -/
def mark (m : Map κ ν) (s : Slot) : Option Nat := m.recency.map (·.mark s)

/-- The number of touches so far, if stamps are kept. -/
def clock (m : Map κ ν) : Option Nat := m.recency.map Recency.clock

/-- How many stamps there is space for, if stamps are kept. -/
def stampCells (m : Map κ ν) : Option Nat := m.recency.map Recency.capacity

/-- The space of each part; a part that is not there has none. -/
def space (m : Map κ ν) : Space
  | .records | .marks => m.chains.links.capacity
  | .keys => m.entries.keyCells
  | .values => m.entries.valueCells.getD 0
  | .counters => m.stampCells.getD 0
  | .buckets => m.chains.capacity

/-- The map `m'` is `m` with more space perhaps. -/
structure Grows (m m' : Map κ ν) : Prop extends m.Like m' where
  clock : m'.clock = m.clock
  mark : ∀ s, m'.mark s = m.mark s

/-- The map `m'` is `m` with the clock advanced and one slot stamped with it. -/
structure Touches (m m' : Map κ ν) (s : Slot) : Prop extends m.Like m' where
  clock : m'.clock = m.clock.map (· + 1)
  mark : ∀ u, m'.mark u = if u = s then m'.clock else m.mark u
  space : m'.space = m.space

variable {m m' : Map κ ν} {s : Slot} {key : Datum κ}

private theorem Like.refl (m : Map κ ν) : m.Like m :=
  ⟨rfl, rfl, rfl, .refl _, fun _ => rfl, fun _ => rfl, rfl, fun _ => id⟩

private theorem Like.trans {m'' : Map κ ν} (h : m.Like m') (k : m'.Like m'') : m.Like m'' where
  config := k.config.trans h.config
  chains := k.chains.trans h.chains
  hasher := k.hasher.trans h.hasher
  entries := h.entries.trans k.entries
  key := fun s => (k.key s).trans (h.key s)
  value := fun s => (k.value s).trans (h.value s)
  tracked := k.tracked.trans h.tracked
  stamped := fun n hn => k.stamped n (h.stamped n hn)

private theorem Grows.refl (m : Map κ ν) : m.Grows m := ⟨.refl m, rfl, fun _ => rfl⟩

private theorem Grows.trans {m'' : Map κ ν} (h : m.Grows m') (k : m'.Grows m'') : m.Grows m'' :=
  ⟨h.toLike.trans k.toLike, k.clock.trans h.clock, fun s => (k.mark s).trans (h.mark s)⟩

private theorem Like.hashOf (h : m.Like m') (key : Datum κ) : m'.hashOf key = m.hashOf key := by
  cases key <;> simp only [Map.hashOf, h.hasher]

theorem Like.holds (h : m.Like m') : m'.Holds s key ↔ m.Holds s key := by
  rw [Holds, Holds, h.chains, h.key]

theorem Like.fits (h : m.Like m') (hm : m.Fits) : m'.Fits where
  chains := h.chains ▸ hm.chains
  limited := h.chains ▸ hm.limited
  loadFactor := by rw [h.chains, h.config, hm.loadFactor]
  maxCapacity := by rw [h.chains, h.config, hm.maxCapacity]
  capacity_le := by rw [h.chains, h.config]; exact hm.capacity_le
  maxCapacity_le := by rw [h.config]; exact hm.maxCapacity_le
  key := by rw [h.entries.keys, h.config, hm.key]
  value := by rw [h.entries.values, h.config, hm.value]
  room := by rw [h.chains]; exact h.entries.room hm.room
  tracked := by rw [h.tracked, h.config, hm.tracked]
  stamped := by rw [h.chains]; exact h.stamped _ hm.stamped

theorem Like.sound (h : m.Like m') (hm : m.Sound) : m'.Sound where
  toFits := h.fits hm.toFits
  hashed := by
    intro s hash hs
    rw [h.chains] at hs
    simpa only [h.key, h.config, h.hashOf] using hm.hashed s hash hs
  distinct := fun s u key hs hu => hm.distinct s u key (h.holds.mp hs) (h.holds.mp hu)
  emptied := by
    intro s hs
    rw [h.chains] at hs
    rw [h.value, h.config, hm.emptied s hs]

namespace Sound

theorem lt_capacity (h : m.Sound) {hash : UInt64} (hs : m.chains.hash? s = some hash) :
    s < m.chains.capacity := by
  obtain ⟨cell, hcell, -⟩ := Chains.hash?_eq_some.mp hs
  exact (Arena.lt_capacity hcell).trans_eq h.chains.capacity_eq

theorem hash?_of_holds (h : m.Sound) (hs : m.Holds s key) :
    m.chains.hash? s = some (m.hashOf key) := by
  obtain ⟨⟨hash, hlive⟩, hkey⟩ := hs
  obtain ⟨key', hkey', -, rfl⟩ := h.hashed s hash hlive
  rw [hlive, Option.some.inj (hkey.symm.trans hkey')]

theorem representation_of_holds (h : m.Sound) (hs : m.Holds s key) :
    key.representation = m.config.key := by
  obtain ⟨⟨hash, hlive⟩, hkey⟩ := hs
  obtain ⟨key', hkey', hrep, -⟩ := h.hashed s hash hlive
  rw [Option.some.inj (hkey.symm.trans hkey'), hrep]

theorem mem_inUse (h : m.Sound) :
    s ∈ m.chains.inUse ↔ ∃ hash, m.chains.hash? s = some hash := by
  rw [Chains.inUse, Arena.mem_inUse h.chains.links, Chains.contains_iff_hash?]

theorem lt_of_mem_inUse (h : m.Sound) (hs : s ∈ m.chains.inUse) : s < m.chains.capacity := by
  obtain ⟨hash, hlive⟩ := h.mem_inUse.mp hs
  exact h.lt_capacity hlive

theorem entryAt_eq (h : m.Sound) (hs : s ∈ m.chains.inUse) :
    m.entryAt s = .ok ((m.entries.key s).map fun key => (key, m.entries.value s)) := by
  have hlt := h.lt_of_mem_inUse hs
  simp only [entryAt, Entries.keyAt_eq h.room hlt, Entries.valueAt_eq h.room hlt, ok_bind,
    pure_eq_ok]
  cases m.entries.key s <;> rfl

end Sound

private theorem findAmong_cases [DecidableEq κ] (h : m.Sound) (key : Datum κ) {slots : List Slot}
    (hlive : ∀ s ∈ slots, ∃ hash, m.chains.hash? s = some hash) :
    (∃ s, m.findAmong key slots = .ok (some s) ∧ m.Holds s key) ∨
      m.findAmong key slots = .ok none ∧ ∀ s ∈ slots, ¬ m.Holds s key := by
  induction slots with
  | nil => exact .inr ⟨rfl, by simp⟩
  | cons s slots ih =>
      obtain ⟨hash, hs⟩ := hlive s (by simp)
      obtain ⟨b, hrun, hb⟩ := Entries.holdsKey_eq h.room (h.lt_capacity hs) key
      cases b with
      | true => exact .inl ⟨s, by simp [findAmong, hrun], ⟨hash, hs⟩, hb.mp rfl⟩
      | false =>
          have hstep : m.findAmong key (s :: slots) = m.findAmong key slots := by
            simp [findAmong, hrun]
          rw [hstep]
          refine (ih fun u hu => hlive u (by simp [hu])).imp_right fun ⟨hrest, hnone⟩ =>
            ⟨hrest, fun u hu => ?_⟩
          rcases List.mem_cons.mp hu with rfl | hu
          · exact fun hu => Bool.false_ne_true (hb.mpr hu.2)
          · exact hnone u hu

/-- A search gives the slot that holds a key, and nothing only if there is none. -/
theorem find_cases [DecidableEq κ] (h : m.Sound) (key : Datum κ) :
    (∃ s, m.find key = .ok (some s) ∧ m.Holds s key) ∨
      m.find key = .ok none ∧ ∀ s, ¬ m.Holds s key := by
  by_cases hrep : key.representation = m.entries.keys.representation
  · obtain ⟨slots, hchain, -, hmem⟩ := Chains.chain_eq h.chains (m.hashOf key)
    have hfind : m.find key = m.findAmong key slots := by
      simp only [find, hrep, ne_eq, not_true_eq_false, if_false, hchain, ok_bind]
    rw [hfind]
    refine (findAmong_cases h key fun s hs => ⟨_, (hmem s).mp hs⟩).imp_right fun ⟨hrun, hnone⟩ =>
      ⟨hrun, fun s hs => hnone s ((hmem s).mpr (h.hash?_of_holds hs)) hs⟩
  · right
    refine ⟨by simp [find, hrep], fun s hs => hrep ?_⟩
    rw [h.representation_of_holds hs, h.key]

theorem touch_eq {n : Nat} (hs : s < n) (h : Stamped m.recency n) :
    ∃ m', m.touch (some s) = .ok m' ∧ m.Touches m' s := by
  unfold touch
  cases hr : m.recency with
  | none => exact ⟨m, rfl, .refl m, by simp [clock, hr], by simp [mark, clock, hr], rfl⟩
  | some r =>
      obtain ⟨r', hrun, hcap, hclock, hmark⟩ := Recency.touch_eq (hs.trans_le (h r hr))
      refine ⟨{ m with recency := some r' }, by simp [hrun], ⟨rfl, rfl, rfl, .refl _, fun _ => rfl,
        fun _ => rfl, by simp [hr], ?_⟩, by simp [clock, hr, hclock], fun u => ?_, ?_⟩
      · rintro n hn _ ⟨⟩
        exact (hn r hr).trans_eq hcap.symm
      · simp only [mark, clock, hr, Option.map_some, hmark, hclock]
        split <;> rfl
      · funext b
        cases b <;> simp [space, stampCells, hr, hcap]

/-- The touches of one slot are forgotten, if stamps are kept. -/
theorem reset_eq {n : Nat} (hs : s < n) (h : Stamped m.recency n) :
    ∃ recency, (m.recency.mapM fun r => r.reset (some s)) = .ok recency ∧ Stamped recency n ∧
      recency.map Recency.clock = m.clock ∧
      (∀ u, recency.map (·.mark u) = if u = s then m.clock.map fun _ => 0 else m.mark u) ∧
      recency.map Recency.capacity = m.stampCells := by
  unfold clock mark stampCells
  cases hr : m.recency with
  | none => exact ⟨none, rfl, by simp [Stamped], rfl, by simp, rfl⟩
  | some r =>
      obtain ⟨r', hrun, hcap, hclock, hmark⟩ := Recency.reset_eq (hs.trans_le (h r hr))
      refine ⟨some r', by simp [hrun], ?_, congrArg some hclock, fun u => ?_, congrArg some hcap⟩
      · rintro _ ⟨⟩
        exact (h r hr).trans_eq hcap.symm
      · simp only [Option.map_some, hmark]
        split <;> rfl

private theorem growValues_cases (h : m.Fits) (slots : Nat) (grants : Allocator) :
    (∃ e, (m.entries.values.mapM fun c => c.grow .values slots grants) = .error e ∧
        m.space.supply grants (m.config.value.map fun r =>
          (⟨.values, slots, r.width⟩ : Reservation)).toList = (.error e, m.space)) ∨
      ∃ values, (m.entries.values.mapM fun c => c.grow .values slots grants) = .ok values ∧
        m.Grows { m with entries := { m.entries with values } } ∧
        m.space.supply grants (m.config.value.map fun r =>
            (⟨.values, slots, r.width⟩ : Reservation)).toList =
          (.ok (), ({ m with entries := { m.entries with values } } : Map κ ν).space) := by
  rw [← h.value]
  cases hv : m.entries.values with
  | none =>
      have hsame : ({ m with entries := { m.entries with values := none } } : Map κ ν) = m := by
        rw [← hv]
      refine .inr ⟨none, rfl, ?_, ?_⟩
      · rw [hsame]
        exact .refl m
      · rw [hsame]
        rfl
  | some c =>
      have hcells : m.space .values = c.capacity := by simp [space, Entries.valueCells, hv]
      rw [Option.map_some, Option.map_some, ← c.width_eq]
      rcases c.grow_supply slots grants hcells with ⟨hrun, hsupply⟩ |
        ⟨c', hrun, hgrows, hcap, hsupply⟩
      · exact .inl ⟨_, by simp [hrun], hsupply⟩
      · refine .inr ⟨some c', by simp [hrun], ⟨⟨rfl, rfl, rfl, ⟨rfl, ?_, fun r => ⟨r.keys, ?_⟩⟩,
          fun _ => rfl, ?_, rfl, fun _ => id⟩, rfl, fun _ => rfl⟩, hsupply.trans ?_⟩
        · simp [hv, hgrows.representation]
        · rintro _ ⟨⟩
          exact (r.values c hv).trans hgrows.capacity
        · intro u
          simp [Entries.value, hv, hgrows.datum]
        · congr 1
          funext b
          cases b <;> simp [space, Space.take, Function.update, Entries.keyCells,
            Entries.valueCells, hv, hcap, stampCells]

private theorem growKeys_cases (h : m.Fits) (slots : Nat) (grants : Allocator) :
    (∃ e, m.entries.keys.grow .keys slots grants = .error e ∧
        m.space.supply grants [⟨.keys, slots, m.config.key.width⟩] = (.error e, m.space)) ∨
      ∃ keys, m.entries.keys.grow .keys slots grants = .ok keys ∧
        m.Grows { m with entries := { m.entries with keys } } ∧
        m.space.supply grants [⟨.keys, slots, m.config.key.width⟩] =
          (.ok (), ({ m with entries := { m.entries with keys } } : Map κ ν).space) := by
  have hcells : m.space .keys = m.entries.keys.capacity := rfl
  rw [← h.key, ← Column.width_eq]
  rcases m.entries.keys.grow_supply slots grants hcells with ⟨hrun, hsupply⟩ |
    ⟨c, hrun, hgrows, hcap, hsupply⟩
  · exact .inl ⟨_, hrun, hsupply⟩
  · refine .inr ⟨c, hrun, ⟨⟨rfl, rfl, rfl, ⟨hgrows.representation, rfl, ?_⟩, hgrows.datum,
      fun _ => rfl, rfl, fun _ => id⟩, rfl, fun _ => rfl⟩, hsupply.trans ?_⟩
    · exact fun r => ⟨r.keys.trans hgrows.capacity, r.values⟩
    · congr 1
      funext b
      cases b <;> simp [space, Space.take, Function.update, Entries.keyCells, Entries.valueCells,
        hcap, stampCells]

private theorem growStamps_cases (h : m.Fits) (slots : Nat) (grants : Allocator) :
    (∃ e, (m.recency.mapM fun r => r.grow slots grants) = .error e ∧
        m.space.supply grants (if m.config.trackAccess then [⟨.counters, slots, 8⟩] else []) =
          (.error e, m.space)) ∨
      ∃ recency, (m.recency.mapM fun r => r.grow slots grants) = .ok recency ∧
        m.Grows { m with recency } ∧
        m.space.supply grants (if m.config.trackAccess then [⟨.counters, slots, 8⟩] else []) =
          (.ok (), ({ m with recency } : Map κ ν).space) := by
  rw [← h.tracked]
  cases hr : m.recency with
  | none =>
      have hsame : ({ m with recency := none } : Map κ ν) = m := by rw [← hr]
      refine .inr ⟨none, rfl, ?_, ?_⟩
      · rw [hsame]
        exact .refl m
      · rw [hsame]
        rfl
  | some r =>
      have hcells : m.space .counters = r.capacity := by simp [space, stampCells, hr]
      rcases r.grow_supply slots grants hcells with ⟨hrun, hsupply⟩ |
        ⟨r', hrun, hcap, hclock, hmark, hsupply⟩
      · exact .inl ⟨_, by simp [hrun], hsupply⟩
      · refine .inr ⟨some r', by simp [hrun], ⟨⟨rfl, rfl, rfl, .refl _, fun _ => rfl, fun _ => rfl,
          by simp [hr], ?_⟩, by simp [clock, hr, hclock], fun u => by simp [mark, hr, hmark]⟩,
          hsupply.trans ?_⟩
        · rintro n hn _ ⟨⟩
          rw [hcap]
          exact (hn r hr).trans (le_max_left _ _)
        · congr 1
          funext b
          cases b <;> simp [space, Space.take, Function.update, stampCells, hr, hcap]

private theorem growColumns_cases (h : m.Fits) (slots : Nat) (grants : Allocator) :
    ∃ answer m', m.growColumns slots grants = (answer, m') ∧ m.Grows m' ∧
      m.space.supply grants (m.config.requests slots) = (answer, m'.space) := by
  rw [Config.requests_eq, Space.supply_append]
  rcases growValues_cases h slots grants with ⟨e, hvalues, hsupply⟩ |
    ⟨values, hvalues, hgrows₁, hsupply⟩
  · exact ⟨.error e, m, by simp [growColumns, Entries.grow, hvalues], .refl m, by rw [hsupply]⟩
  rw [hsupply]
  dsimp only
  rw [Space.supply_append]
  rcases growKeys_cases (hgrows₁.fits h) slots grants with ⟨e, hkeys, hsupply⟩ |
    ⟨keys, hkeys, hgrows₂, hsupply⟩
  · refine ⟨.error e, _, ?_, hgrows₁, by rw [hsupply]⟩
    simp [growColumns, Entries.grow, hvalues, hkeys]
  rw [hsupply]
  dsimp only
  have hgrows := hgrows₁.trans hgrows₂
  rcases growStamps_cases (hgrows.fits h) slots grants with ⟨e, hstamps, hsupply⟩ |
    ⟨recency, hstamps, hgrows₃, hsupply⟩
  · refine ⟨.error e, _, ?_, hgrows, hsupply⟩
    simp [growColumns, Entries.grow, hvalues, hkeys, hstamps]
  · refine ⟨.ok (), _, ?_, hgrows.trans hgrows₃, hsupply⟩
    simp [growColumns, Entries.grow, hvalues, hkeys, hstamps]

private theorem Fits.room_of_space (h : m.Fits) {slots : Nat}
    (hspace : ∀ r ∈ m.config.requests slots, r.slots ≤ m.space r.backing) :
    m.entries.Room slots ∧ Stamped m.recency slots := by
  rw [Config.requests_eq, ← h.value, ← h.tracked] at hspace
  simp only [List.mem_append, or_imp, forall_and] at hspace
  obtain ⟨hvalues, hkeys, hstamps⟩ := hspace
  refine ⟨⟨hkeys _ (List.mem_singleton_self _), fun c hc => ?_⟩, fun r hr => ?_⟩
  · have hcells := hvalues ⟨.values, slots, c.representation.width⟩ (by simp [hc])
    simpa [space, Entries.valueCells, hc] using hcells
  · have hcells := hstamps ⟨.counters, slots, 8⟩ (by simp [hr])
    simpa [space, stampCells, hr] using hcells

theorem space_of_matches {e : Entries κ ν} (h : m.entries.Matches e) :
    ({ m with entries := e } : Map κ ν).space = m.space := by
  funext b
  cases b <;> simp [space, stampCells, h.keyCells, h.valueCells]

theorem space_of_same_capacity {c : Chains} (h : m.chains.Sound) (hc : c.Sound)
    (hcap : c.capacity = m.chains.capacity) :
    ({ m with chains := c } : Map κ ν).space = m.space := by
  funext b
  cases b <;> simp [space, stampCells, h.capacity_eq, hc.capacity_eq, hcap]

theorem clear_space (m : Map κ ν) : m.clear.space = m.space := by
  obtain ⟨hmatches, -⟩ := Entries.clear_eq m.entries
  have hbuckets : m.clear.chains.capacity = m.chains.capacity := by
    simp [Map.clear, Chains.clear, Chains.capacity]
  have hlinks : m.clear.chains.links.capacity = m.chains.links.capacity := by
    simp [Map.clear, Chains.clear, Arena.clear, Arena.capacity]
  have hstamps : m.clear.stampCells = m.stampCells := by
    simp [Map.clear, stampCells, Function.comp_def, Recency.clear_capacity]
  funext b
  cases b
  case records => exact hlinks
  case marks => exact hlinks
  case keys => exact hmatches.keyCells
  case values => exact congrArg (·.getD 0) hmatches.valueCells
  case counters => exact congrArg (·.getD 0) hstamps
  case buckets => exact hbuckets

private theorem space_withChains {c : Chains} (h : m.chains.Sound) (hc : c.Sound)
    (hle : m.chains.capacity ≤ c.capacity) :
    ({ m with chains := c } : Map κ ν).space =
      (Chains.space c.capacity).foldl Space.take m.space := by
  have hlinks := h.capacity_eq
  funext b
  cases b <;> simp [space, stampCells, Chains.space, Arena.space, Space.take, Function.update,
    hlinks, hc.capacity_eq, hle]

private theorem allocate_of_makeRoom (h : m.Sound) (hash : UInt64) {grants : Allocator}
    (hroom : m.makeRoom grants = (.ok (), m')) (hgrows : m.Grows m') :
    (∃ slots, m.allocate hash grants =
          .ok (.error (.full slots (m.chains.ceiling slots)), m') ∧
        m.chains.nextCapacity? = some slots ∧ ¬ m.chains.Admits slots grants) ∨
      ∃ s c, m.allocate hash grants = .ok (.ok s, { m' with chains := c }) ∧
        m.chains.Adds c s hash ∧
        c.capacity = m.chains.nextCapacity?.getD m.chains.capacity ∧
        ∀ slots, m.chains.nextCapacity? = some slots → m.chains.Admits slots grants := by
  rcases Chains.insert_cases h.chains h.limited (h.maxCapacity ▸ h.capacity_le)
      (h.maxCapacity ▸ h.maxCapacity_le) hash grants with
    ⟨slots, hinsert, hasked, hr⟩ | ⟨s, c, hinsert, hadds, hcap, -, -, hadmits⟩
  · refine .inl ⟨slots, ?_, hasked, hr⟩
    simp only [allocate, hroom, hgrows.chains, hinsert, ok_bind, pure_eq_ok]
    rw [← hgrows.chains]
  · refine .inr ⟨s, c, ?_, hadds, hcap, hadmits⟩
    simp only [allocate, hroom, hgrows.chains, hinsert, ok_bind, pure_eq_ok]

private theorem allocate_of_columns (h : m.Sound) {hash : UInt64} {grants : Allocator}
    (hfull : ¬ m.size < Chains.limitFor (m.space .buckets) m.config.loadFactor)
    (hmax : ¬ m.config.maxCapacity < 2 * m.space .buckets)
    (hnext : m.chains.nextCapacity? = some (2 * m.space .buckets))
    (hmake : m.makeRoom grants = (.ok (), m')) (hgrows : m.Grows m')
    (hsupply : m.space.supply grants (m.config.requests (2 * m.space .buckets)) =
      (.ok (), m'.space)) :
    (∃ requested limit, m.allocate hash grants = .ok (.error (.full requested limit), m') ∧
        m.config.allot m.space m.size grants = (.error (.full requested limit), m'.space)) ∨
      ∃ s c, m.allocate hash grants = .ok (.ok s, { m' with chains := c }) ∧
        m.chains.Adds c s hash ∧ c.capacity ≤ m.config.maxCapacity ∧
        m'.entries.Room c.capacity ∧ Stamped m'.recency c.capacity ∧
        m.config.allot m.space m.size grants =
          (.ok (), ({ m' with chains := c } : Map κ ν).space) := by
  rw [Config.allot_of_granted hfull hmax hsupply]
  rcases allocate_of_makeRoom h hash hmake hgrows with
    ⟨slots, hrun, hasked, hr⟩ | ⟨s, c, hrun, hadds, hcap, hadmits⟩
  · obtain rfl := Option.some.inj (hnext.symm.trans hasked)
    have hrefused : ¬ (Chains.space (2 * m.space .buckets)).all grants = true := fun hall =>
      hr ⟨h.maxCapacity ▸ not_lt.mp hmax, List.all_eq_true.mp hall⟩
    refine .inl ⟨_, _, hrun, ?_⟩
    rw [if_neg hrefused, Chains.ceiling, h.maxCapacity, if_neg hmax]
    rfl
  · have hgranted : (Chains.space (2 * m.space .buckets)).all grants = true :=
      List.all_eq_true.mpr (hadmits _ hnext).2
    have hfits := hgrows.fits h.toFits
    have hgiven := hfits.room_of_space (hgrows.config ▸ Space.supply_ok hsupply)
    replace hcap : c.capacity = 2 * m.space .buckets := by
      rw [hcap, hnext]
      rfl
    have hle : m'.chains.capacity ≤ c.capacity := by
      rw [hcap, hgrows.chains]
      exact Nat.le_mul_of_pos_left _ Nat.two_pos
    refine .inr ⟨s, c, hrun, hadds, hcap.trans_le (not_lt.mp hmax), hcap ▸ hgiven.1,
      hcap ▸ hgiven.2, ?_⟩
    rw [if_pos hgranted, space_withChains hfits.chains hadds.sound hle, hcap]

/-- A slot for a new key is refused, or it has room in every column. The space of the map decides
which, and is what the configuration tells afterwards. -/
theorem allocate_cases (h : m.Sound) (hash : UInt64) (grants : Allocator) :
    ∃ m', m.Grows m' ∧
      ((∃ requested limit, m.allocate hash grants = .ok (.error (.full requested limit), m') ∧
          m.config.allot m.space m.size grants = (.error (.full requested limit), m'.space)) ∨
        ∃ s c, m.allocate hash grants = .ok (.ok s, { m' with chains := c }) ∧
          m.chains.Adds c s hash ∧ c.capacity ≤ m.config.maxCapacity ∧
          m'.entries.Room c.capacity ∧ Stamped m'.recency c.capacity ∧
          m.config.allot m.space m.size grants =
            (.ok (), ({ m' with chains := c } : Map κ ν).space)) := by
  have hnext := Chains.nextCapacity?_eq h.chains h.limited (h.capacity_le.trans h.maxCapacity_le)
  rw [h.loadFactor] at hnext
  by_cases hroom : m.size < Chains.limitFor (m.space .buckets) m.config.loadFactor
  · replace hnext := hnext.trans (if_pos hroom)
    have hmake : m.makeRoom grants = (.ok (), m) := by simp [makeRoom, hnext]
    rcases allocate_of_makeRoom h hash hmake (.refl m) with
      ⟨slots, -, hasked, -⟩ | ⟨s, c, hrun, hadds, hcap, -⟩
    · cases hnext.symm.trans hasked
    rw [hnext, Option.getD_none] at hcap
    refine ⟨m, .refl m, .inr ⟨s, c, hrun, hadds, hcap.trans_le h.capacity_le, hcap ▸ h.room,
      hcap ▸ h.stamped, ?_⟩⟩
    rw [Config.allot_of_lt hroom, space_of_same_capacity h.chains hadds.sound hcap]
  replace hnext : m.chains.nextCapacity? = some (2 * m.space .buckets) :=
    hnext.trans (if_neg hroom)
  by_cases hmax : m.config.maxCapacity < 2 * m.space .buckets
  · have hnot : ¬ m.chains.Admits (2 * m.space .buckets) grants := fun hadmits =>
      not_le.mpr hmax (h.maxCapacity ▸ hadmits.1)
    have hmake : m.makeRoom grants = (.ok (), m) := by
      rw [makeRoom, hnext]
      exact if_pos hmax
    rcases allocate_of_makeRoom h hash hmake (.refl m) with
      ⟨slots, hrun, hasked, -⟩ | ⟨s, c, -, -, -, hadmits⟩
    · obtain rfl := Option.some.inj (hnext.symm.trans hasked)
      refine ⟨m, .refl m, .inl ⟨_, _, hrun, ?_⟩⟩
      rw [Config.allot_of_max hroom hmax, Chains.ceiling, h.maxCapacity, if_pos hmax]
    · exact absurd (hadmits _ hnext) hnot
  obtain ⟨answer, m', hgrow, hgrows, hsupply⟩ :=
    growColumns_cases h.toFits (2 * m.space .buckets) grants
  have hmake : m.makeRoom grants = (answer, m') := by
    rw [makeRoom, hnext]
    exact (if_neg hmax).trans hgrow
  refine ⟨m', hgrows, ?_⟩
  cases answer with
  | error e =>
      obtain ⟨requested, limit, rfl⟩ := Space.supply_error hsupply
      rw [Config.allot_of_refused hroom hmax hsupply]
      exact .inl ⟨requested, limit, by simp [allocate, hmake], rfl⟩
  | ok _ => exact allocate_of_columns h hroom hmax hnext hmake hgrows hsupply

/-- A new key is written to the slot that it gets, with its value if there is one. -/
theorem insertNew_eq (m : Map κ ν) (key : Datum κ) (value : Option (Datum ν))
    (grants : Allocator) :
    m.insertNew key value grants = do
      match ← m.allocate (m.hashOf key) grants with
      | (.error e, m) => return (.error e, m)
      | (.ok s, m) =>
          let entries ← m.entries.writeEntry (some s) key value
          return (.ok (), ← { m with entries }.touch (some s)) := by
  unfold insertNew
  refine bind_congr fun answer => ?_
  obtain ⟨slot, m₁⟩ := answer
  cases slot with
  | error e => rfl
  | ok s =>
      simp only [Entries.writeEntry, bind_assoc]
      cases value <;> rfl

end TableIndex.Map
