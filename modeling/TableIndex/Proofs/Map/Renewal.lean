import TableIndex.Proofs.Map.Alignment
import TableIndex.Proofs.Map.HashChoice

/-!
# Cleared maps

A cleared map is a new map that begins with the capacity reached. Whatever it held and in whichever
order its slots were released, no later operation can tell the two apart, and they show the same but
for the number of resizes and the clock, which go on.
-/

namespace TableIndex.Map

variable {κ ν : Type} {m m₁ : Map κ ν} {config : Config}

private theorem Config.ceilPowerOfTwo_two_pow (k : Nat) : ceilPowerOfTwo (2 ^ k) = 2 ^ k := by
  cases k with
  | zero => rfl
  | succ k =>
      have hlog : (2 ^ (k + 1) - 1).log2 = k := by
        have hpos := Nat.two_pow_pos k
        refine (Nat.log2_eq_iff (by omega)).mpr ⟨?_, ?_⟩ <;> omega
      rw [ceilPowerOfTwo, if_neg (by have := Nat.two_pow_pos k; omega), hlog]
      rfl

/-- The configuration that asks for this capacity at once, as far as it can be counted. -/
def Config.withCapacity (config : Config) (capacity : Nat) : Config :=
  { config with
    initialCapacity := min capacity (Nat.pow 2 63)
    initialCapacity_le := min_le_right _ _ }

private theorem Config.withCapacity_slots (config : Config) {capacity : Nat}
    (h : ∃ k, capacity = 2 ^ k) (hle : capacity ≤ maxSlots) :
    (config.withCapacity capacity).initialSlots = capacity := by
  have hcount : min capacity (Nat.pow 2 63) = capacity := by
    have : maxSlots = 2147483648 := rfl
    have : Nat.pow 2 63 = 9223372036854775808 := rfl
    omega
  obtain ⟨k, rfl⟩ := h
  exact (congrArg ceilPowerOfTwo hcount).trans (ceilPowerOfTwo_two_pow k)

private theorem Config.withCapacity_valid (hvalid : config.validate = .ok ()) {capacity : Nat}
    (hpower : ∃ k, capacity = 2 ^ k) (hle : capacity ≤ config.maxCapacity) :
    (config.withCapacity capacity).validate = .ok () := by
  obtain ⟨hfactor, hmax, -⟩ := validate_eq_ok.mp hvalid
  have hslots := config.withCapacity_slots hpower (hle.trans hmax.2)
  exact validate_eq_ok.mpr ⟨hfactor, hmax, hslots.trans_le hle⟩

private theorem Sound.clear_entries (h : m.Sound) (heven : ∀ n ∈ m.lengths, n = m.capacity) :
    m.clear.entries = .ofCapacity m.config.key m.config.value m.capacity := by
  have hkeys : m.entries.keyCells = m.capacity := heven _ (by simp [lengths, Entries.keyCells])
  have hvalues : ∀ k, m.entries.valueCells = some k → k = m.capacity := fun k hk =>
    heven k (by rw [Entries.valueCells] at hk; simp [lengths, hk])
  have hcleared := Entries.clear_eq_ofCapacity hkeys hvalues
  rwa [h.key, h.value] at hcleared

private theorem clear_recency (heven : ∀ n ∈ m.lengths, n = m.capacity)
    (htrack : m.recency.isSome = config.trackAccess) :
    m.clear.recency =
      (if config.trackAccess then some (Recency.ofCapacity m.capacity) else none).map
        (Recency.later (m.clock.getD 0)) := by
  have hcleared : m.clear.recency = m.recency.map Recency.clear := rfl
  rw [hcleared, clock, ← htrack]
  cases hr : m.recency with
  | none => rfl
  | some r =>
      have hcap : r.capacity = m.capacity := heven _ (by simp [lengths, hr])
      rw [Option.map_some, Recency.clear_eq_later, hcap]
      rfl

variable [DecidableEq κ] {M : Bindings κ ν}

/-- A map whose columns are as long as its table is cleared to a new one, but for the counts of its
resizes and of its touches. -/
theorem Represents.clear_twin (h : m.Represents config M) (hstep : m.InStep config)
    (heven : ∀ n ∈ m.lengths, n = m.capacity) {hasher : κ → UInt64}
    (hnew : ofConfig (config.withCapacity m.capacity) hasher = .ok m₁) :
    m₁.Twin m.resizes (m.clock.getD 0) m.clear := by
  obtain ⟨hconfig, hchains, hentries, hrecency⟩ := ofConfig_parts hnew
  have hmax := h.sound.maxCapacity_le
  rw [h.config] at hmax
  rw [config.withCapacity_slots hstep.power_of_two (hstep.capacity_le.trans hmax)]
    at hchains hentries hrecency
  constructor
  case maxCapacity =>
      have hsame : m.config.maxCapacity = config.maxCapacity := congrArg _ h.config
      rw [hconfig]
      exact hsame
  case entries =>
      rw [hentries, h.sound.clear_entries heven, h.config]
      rfl
  case recency =>
      rw [hrecency]
      exact clear_recency heven hstep.stamps
  case chains =>
      have hahead := Chains.clear_ahead h.sound.chains h.sound.limited
      rw [h.sound.loadFactor, h.sound.maxCapacity, h.config] at hahead
      rw [hchains]
      exact hahead

/-- However a map was used, if no column is longer than the table, then once it is cleared it gives
the same replies to every later run as a new map that begins with its capacity. The two show the
same afterwards, but that the cleared one keeps its configuration, and counts its resizes and its
clock from where they were. -/
theorem clear_renews (hvalid : config.validate = .ok ()) (hasher : κ → UInt64)
    (ops : List (Op κ ν)) :
    ∃ m₀ replies m m₁, ofConfig config hasher = .ok m₀ ∧ m₀.run ops = .ok (replies, m) ∧
      ofConfig (config.withCapacity m.capacity) hasher = .ok m₁ ∧
      ((∀ n ∈ m.lengths, n = m.capacity) →
        ∀ later : List (Op κ ν), ∃ replies n n' view,
          m₁.run later = .ok (replies, n) ∧ m.clear.run later = .ok (replies, n') ∧
          n.config = config.withCapacity m.capacity ∧ n'.config = config ∧
          n.view = .ok view ∧ n'.view = .ok (view.later m.resizes (m.clock.getD 0)) ∧
          ∀ key, ∃ stamp, n.stamp key = .ok stamp ∧
            n'.stamp key = .ok (stamp.map (Recency.laterStamp (m.clock.getD 0)))) := by
  obtain ⟨m₀, hnew, h₀⟩ := ofConfig_represents (ν := ν) hvalid hasher
  obtain ⟨replies, m, M, hrun, -, h⟩ := h₀.run_answers ops
  have hstep := h₀.run_inStep hnew hrun h
  obtain ⟨m₁, hnew₁, h₁⟩ := ofConfig_represents (ν := ν)
    (Config.withCapacity_valid hvalid hstep.power_of_two hstep.capacity_le) hasher
  refine ⟨m₀, replies, m, m₁, hnew, hrun, hnew₁, fun heven later => ?_⟩
  have htwin := h.clear_twin hstep heven hnew₁
  obtain ⟨replies, n, n', hlater, hlater', htwins, hn, hn'⟩ := htwin.run h₁ h.clear_represents later
  obtain ⟨view, hview, -⟩ := hn.view_eq
  refine ⟨replies, n, n', view, hlater, hlater', h₁.run_config hlater,
    h.clear_represents.run_config hlater', hview, htwins.view_later hn hn' hview, fun key => ?_⟩
  obtain ⟨stamp, hstamp⟩ := hn.stamp_of_key key
  exact ⟨stamp, hstamp, htwins.stamp_later hn hn' hstamp⟩

/-- A map that has grown and released a slot is renewed. -/
theorem clear_renews_grown :
    Config.twoSlots.validate = .ok () ∧ ∃ (m₀ : Map String String) (replies : _) (m m₁ : _),
      ofConfig Config.twoSlots (fun _ => 0) = .ok m₀ ∧
        m₀.run [.put (.int32 1) (.int32 5) .addressable, .add (.int32 2) .addressable,
          .erase (.int32 1)] = .ok (replies, m) ∧
        ofConfig (Config.twoSlots.withCapacity m.capacity) (fun _ => 0) = .ok m₁ ∧
        (∀ n ∈ m.lengths, n = m.capacity) ∧
        ∀ later : List (Op String String), ∃ replies n n' view,
          m₁.run later = .ok (replies, n) ∧ m.clear.run later = .ok (replies, n') ∧
            n.view = .ok view ∧ n'.view = .ok (view.later m.resizes (m.clock.getD 0)) := by
  have hvalid : Config.twoSlots.validate = .ok () := by decide
  obtain ⟨m₀, replies, m, m₁, hnew, hrun, hnew₁, hlater⟩ :=
    clear_renews (ν := String) hvalid (fun _ : String => 0)
      [.put (.int32 1) (.int32 5) .addressable, .add (.int32 2) .addressable, .erase (.int32 1)]
  have heven : ∀ n ∈ m.lengths, n = m.capacity := by
    cases hnew
    cases hrun
    decide
  refine ⟨hvalid, m₀, replies, m, m₁, hnew, hrun, hnew₁, heven, fun later => ?_⟩
  obtain ⟨replies, n, n', view, hn, hn', -, -, hview, hview', -⟩ := hlater heven later
  exact ⟨replies, n, n', view, hn, hn', hview, hview'⟩

/-- Values that grew for a refused key are there after a clear. A new map of the same capacity has
to ask for them when it grows, and may be refused them. -/
theorem clear_keeps_space :
    ∃ m₀ m m₁ : Map String String,
      ofConfig Config.twoSlots (fun _ => 0) = .ok m₀ ∧
        m₀.run [.put (.int32 1) (.int32 5) .addressable,
            .put (.int32 2) (.int32 5) grantsNoBuckets] =
          .ok ([.value none, .error (.full 2 1)], m) ∧
        ofConfig (Config.twoSlots.withCapacity m.capacity) (fun _ => 0) = .ok m₁ ∧
        (m₁.run [.put (.int32 1) (.int32 5) .addressable,
            .put (.int32 2) (.int32 5) fun r => decide (r.backing ≠ .values)]).map Prod.fst =
          .ok [.value none, .error (.full 2 1)] ∧
        (m.clear.run [.put (.int32 1) (.int32 5) .addressable,
            .put (.int32 2) (.int32 5) fun r => decide (r.backing ≠ .values)]).map Prod.fst =
          .ok [.value none, .value none] :=
  ⟨_, _, _, rfl, rfl, rfl, rfl, by decide +kernel⟩

end TableIndex.Map
