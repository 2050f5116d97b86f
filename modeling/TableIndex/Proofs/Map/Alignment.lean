import TableIndex.Proofs.Map.Effects
import TableIndex.Proofs.Map.Load
import TableIndex.Proofs.Map.Refusals
import TableIndex.Proofs.Map.View

/-!
# Arrays in step

The buckets, the links, the columns and the stamps of a map are grown by different calls and cleared
in different ways. In every state the buckets and the links have as many cells as the capacity says,
which is that of a new map doubled once for each resize, and so have the columns and the stamps,
unless space was refused in the middle of a growth. Then some of these have as many empty cells to
spare, until the next growth uses them. A slot that is not live shows no trace of the keys that it
held.
-/

namespace TableIndex

namespace Chains.Valid

variable {c c' : Chains}

private theorem capacity_of_reaches (h : c.Valid) {base : Nat}
    (hc : c.capacity = base * 2 ^ c.resizes) (hreaches : c.Reaches c') :
    c'.capacity = base * 2 ^ c'.resizes := by
  obtain ⟨ops, hrun⟩ := hreaches
  exact h.run_induction (P := fun d => d.capacity = base * 2 ^ d.resizes)
    (fun _ _ _ _ hmoves hd => hmoves.capacity_eq hd) hc hrun

end Chains.Valid

namespace Map

variable {κ ν : Type} {m m' : Map κ ν} {s : Slot} {op : Op κ ν} {reply : Reply κ ν}
  {touched : Option (Datum κ)} {config : Config}

namespace Effect

/-- A free slot that an operation makes live holds the key of the operation, with its value or the
empty one, and the stamp of this touch. -/
theorem record_of_reused (h : Effect op m m' reply touched) (hs : m.chains.hash? s = none)
    {hash : UInt64} (hs' : m'.chains.hash? s = some hash) :
    ∃ key given, op.binding? = some (key, given) ∧ m'.record s =
      ⟨some (m.hashOf key), some key, given.or m.config.emptyValue, m'.clock⟩ := by
  have hlive : (m'.record s).hash = some hash := hs'
  cases h with
  | kept same =>
      rw [same, hs] at hs'
      cases hs'
  | refused grows =>
      rw [grows.chains, hs] at hs'
      cases hs'
  | touched holds record clock =>
      rw [record] at hlive
      split at hlive
      · next heq => exact absurd (heq ▸ holds) (not_holds_of_free hs)
      · cases hs.symm.trans hlive
  | @taken _ _ key given binding vacant absent record clock =>
      rw [record] at hlive ⊢
      split at hlive
      · next heq => exact ⟨key, given, binding, if_pos heq⟩
      · cases hs.symm.trans hlive
  | dropped holds record clock =>
      rw [record] at hlive
      split at hlive
      · cases hlive
      · cases hs.symm.trans hlive
  | cleared record clock =>
      rw [record] at hlive
      cases hlive

end Effect

/-- How many cells there are of each kind: buckets, links, keys, values and stamps. -/
def lengths (m : Map κ ν) : List Nat :=
  [m.chains.buckets.size, m.chains.links.capacity, m.entries.keys.capacity] ++
    (m.entries.values.map Column.capacity).toList ++ (m.recency.map Recency.capacity).toList

/-- Some column has another length than the table. -/
def Spare (m : Map κ ν) : Prop := ∃ n ∈ m.lengths, n ≠ m.capacity

private theorem Fits.mem_lengths (h : m.Fits) {n : Nat} :
    n ∈ m.lengths ↔ n = m.capacity ∨ ∃ p ∈ m.config.columns, m.space p.1 = n := by
  have hbuckets : m.chains.buckets.size = m.capacity := rfl
  have hlinks : m.chains.links.capacity = m.capacity := h.chains.capacity_eq
  rw [lengths, Config.columns, ← h.key, ← h.value, ← h.tracked, hbuckets, hlinks]
  cases hv : m.entries.values <;> cases hr : m.recency <;>
    simp [space, Entries.keyCells, Entries.valueCells, stampCells, hv, hr, eq_comm,
      or_comm, or_left_comm]

private theorem Fits.spare_iff (h : m.Fits) : m.Spare ↔ m.config.Spare m.space := by
  have hbuckets : m.space .buckets = m.capacity := rfl
  simp only [Spare, Config.Spare, h.mem_lengths, hbuckets]
  constructor
  · rintro ⟨n, rfl | ⟨p, hp, rfl⟩, hne⟩
    · exact absurd rfl hne
    · exact ⟨p, hp, hne⟩
  · rintro ⟨p, hp, hne⟩
    exact ⟨_, .inr ⟨p, hp, rfl⟩, hne⟩

private theorem Config.initialSlots_eq (config : Config) : ∃ k, config.initialSlots = 2 ^ k := by
  unfold initialSlots ceilPowerOfTwo
  split
  · exact ⟨0, rfl⟩
  · exact ⟨_, rfl⟩

variable [DecidableEq κ] {M : Bindings κ ν}

/-- What an operation is granted that may need space. -/
def Op.grants? : Op κ ν → Option Allocator
  | .put _ _ grants => some grants
  | .add _ grants => some grants
  | _ => none

private theorem Config.Answers.allotted {M' : Bindings κ ν} {space space' : Space}
    (h : config.Answers M space op reply M' space') :
    (space' = space ∧ ∀ requested limit, reply ≠ .error (.full requested limit)) ∨
      ∃ grants answer, op.grants? = some grants ∧
        config.allot space M.keys.card grants = (answer, space') ∧
        ((∃ e, answer = .error e) ↔ ∃ requested limit, reply = .error (.full requested limit)) := by
  cases h with
  | putFull hvalue hkey habsent hfull =>
      exact .inr ⟨_, _, rfl, hfull, iff_of_true ⟨_, rfl⟩ ⟨_, _, rfl⟩⟩
  | addFull hkey habsent hfull =>
      exact .inr ⟨_, _, rfl, hfull, iff_of_true ⟨_, rfl⟩ ⟨_, _, rfl⟩⟩
  | putNew hvalue hkey habsent hroom => exact .inr ⟨_, _, rfl, hroom, by simp⟩
  | addNew hkey habsent hroom => exact .inr ⟨_, _, rfl, hroom, by simp⟩
  | _ => exact .inl ⟨rfl, by simp⟩

private theorem Config.Answers.bounded {M' : Bindings κ ν} {space space' : Space}
    (h : config.Answers M space op reply M' space') (hspace : config.Bounded space) :
    config.Bounded space' := by
  rcases h.allotted with ⟨rfl, -⟩ | ⟨grants, answer, -, hallot, -⟩
  · exact hspace
  · exact allot_bounded hspace hallot

/-- An operation leaves columns longer than the table if they were, or if it is refused space after
the first column had its own, unless it doubles the table. -/
theorem Represents.apply_spare (h : m.Represents config M) (hspace : config.Bounded m.space)
    (hop : m.apply op = .ok (reply, m')) :
    m'.Spare ↔ m'.capacity = m.capacity ∧ (m.Spare ∨
      (∃ requested limit, reply = .error (.full requested limit)) ∧
        2 * m.capacity ≤ config.maxCapacity ∧ ∃ grants r, op.grants? = some grants ∧
          (config.requests (2 * m.capacity)).head? = some r ∧ grants r = true) := by
  obtain ⟨reply₁, m₁, M₁, hop₁, hanswer, h'⟩ := h.apply_answers op
  cases hop₁.symm.trans hop
  rw [h'.sound.spare_iff, h.sound.spare_iff, h'.config, h.config]
  rcases hanswer.allotted with ⟨hsame, hnot⟩ | ⟨grants, answer, hgrants, hallot, hfailed⟩
  · have hcap : m'.capacity = m.capacity := congrFun hsame .buckets
    rw [hsame]
    refine ⟨fun hs => ⟨hcap, .inl hs⟩, fun hs => hs.2.resolve_right ?_⟩
    rintro ⟨⟨requested, limit, hfull⟩, -⟩
    exact hnot requested limit hfull
  · have hcap : m'.capacity = m.capacity ↔ m'.space .buckets = m.space .buckets := Iff.rfl
    rw [Config.allot_spare hspace h.sound.chains.pos hallot, hfailed, hcap, hgrants]
    simp only [Option.some.injEq, Option.mem_def, exists_eq_left', exists_and_left]
    rfl

private theorem Represents.run_bounded {ops : List (Op κ ν)} (h : m.Represents config M)
    (hspace : config.Bounded m.space) {replies : List (Reply κ ν)}
    (hrun : m.run ops = .ok (replies, m')) : config.Bounded m'.space :=
  h.run_induction (P := fun m => config.Bounded m.space)
    (fun _ _ _ _ _ _ _ _ _ _ hanswer hspace => hanswer.bounded hspace) hspace hrun

private theorem Represents.run_even {ops : List (Op κ ν)} (h : m.Represents config M)
    (hspace : config.Bounded m.space) (hserved : ∀ op ∈ ops, op.Served config.maxCapacity)
    (hm : ¬ m.Spare) {replies : List (Reply κ ν)} (hrun : m.run ops = .ok (replies, m')) :
    ¬ m'.Spare := by
  refine (h.run_induction (P := fun m => config.Bounded m.space ∧ ¬ m.Spare)
    (fun op hop m₁ m₂ M₁ M₂ reply h₁ h₂ happly hanswer hm₁ => ?_) ⟨hspace, hm⟩ hrun).2
  refine ⟨hanswer.bounded hm₁.1, fun hspare => ?_⟩
  rcases ((h₁.apply_spare hm₁.1 happly).mp hspare).2 with hm | ⟨⟨requested, limit, rfl⟩, -⟩
  · exact hm₁.2 hm
  · have hsame := h₁.sound.apply_refused (h₁.config ▸ hserved op hop) happly
    exact hm₁.2 (hsame ▸ hspare)

private theorem Config.newSpace_even (config : Config) :
    ∀ p ∈ config.columns, config.newSpace p.1 = config.newSpace .buckets := by
  unfold columns newSpace isSet
  cases config.value <;> cases config.trackAccess <;> simp

omit [DecidableEq κ] in
private theorem ofConfig_bounded {hasher : κ → UInt64} (hnew : ofConfig config hasher = .ok m) :
    config.Bounded m.space := by
  rw [ofConfig_space hnew]
  exact fun p hp => .inl (config.newSpace_even p hp)

omit [DecidableEq κ] in
private theorem ofConfig_even {hasher : κ → UInt64} (h : m.Sound)
    (hnew : ofConfig config hasher = .ok m) :
    ¬ m.Spare := by
  obtain ⟨hconfig, -⟩ := ofConfig_parts hnew
  rw [h.spare_iff, hconfig, ofConfig_space hnew]
  rintro ⟨p, hp, hne⟩
  exact hne (config.newSpace_even p hp)

/-- The parts of a map have what its configuration asks for and what they ask of each other. -/
structure InStep (config : Config) (m : Map κ ν) : Prop where
  capacity_eq : m.capacity = config.initialSlots * 2 ^ m.resizes
  power_of_two : ∃ k, m.capacity = 2 ^ k
  capacity_le : m.capacity ≤ config.maxCapacity
  values : m.entries.values.isSome = config.value.isSome
  stamps : m.recency.isSome = config.trackAccess
  buckets : m.chains.buckets.size = m.capacity
  links : m.chains.links.capacity = m.capacity
  lengths : ∀ n ∈ m.lengths, n = m.capacity ∨ n = 2 * m.capacity
  bucket_lt : ∀ hash, Hash.bucket hash m.chains.mask < m.capacity
  slot_lt : ∀ s, s < m.chains.links.frontier ∨ s ∈ m.chains.links.freed → s < m.capacity
  vacant : ∀ s, m.chains.contains (some s) = false → m.record s = config.blank

private theorem Represents.inStep (h : m.Represents config M)
    (hm : m.Swept ∧ m.blank = config.blank) (hspace : config.Bounded m.space)
    (hcap : m.capacity = config.initialSlots * 2 ^ m.resizes) : m.InStep config where
  capacity_eq := hcap
  power_of_two := by
    obtain ⟨k, hk⟩ := config.initialSlots_eq
    exact ⟨k + m.resizes, by rw [hcap, hk, pow_add]⟩
  capacity_le := h.config ▸ h.sound.capacity_le
  values := by
    rw [← h.config, ← h.sound.value, Option.isSome_map]
  stamps := by
    have hstamp := congrArg (fun r => r.stamp.isSome) hm.2
    simp only [blank, clock, Option.map_map, Option.isSome_map, Config.blank] at hstamp
    rw [hstamp]
    cases config.trackAccess <;> rfl
  buckets := rfl
  links := h.sound.chains.capacity_eq
  lengths := by
    intro n hn
    rcases h.sound.mem_lengths.mp hn with rfl | ⟨p, hp, rfl⟩
    · exact .inl rfl
    · exact hspace p (h.config ▸ hp)
  bucket_lt := Chains.bucket_lt h.sound.chains
  slot_lt := by
    have hlinks := h.sound.chains.links
    have hle := hlinks.frontier_le.trans_eq h.sound.chains.capacity_eq
    rintro s (hs | hs)
    · exact hs.trans_le hle
    · exact ((hlinks.used_iff s).mpr (.inr hs)).trans_le hle
  vacant := by
    intro s hs
    rw [← hm.2]
    exact hm.1 s (Chains.hash?_eq_none.mpr hs)

section

variable {m₀ : Map κ ν} {hasher : κ → UInt64} {ops : List (Op κ ν)} {replies : List (Reply κ ν)}

theorem Represents.run_inStep (hnew : ofConfig config hasher = .ok m₀)
    (h₀ : m₀.Represents config ∅) (hrun : m₀.run ops = .ok (replies, m))
    (h : m.Represents config M) : m.InStep config := by
  have hcap₀ : m₀.chains.capacity = config.initialSlots * 2 ^ m₀.chains.resizes := by
    rw [(ofConfig_parts hnew).2.1]
    simp [Chains.ofCapacity, Chains.capacity]
  exact h.inStep (h₀.run_swept (ofConfig_swept hnew) hrun)
    (h₀.run_bounded (ofConfig_bounded hnew) hrun)
    (h₀.sound.valid.capacity_of_reaches hcap₀ (run_reaches hrun))

end

/-- However a new map is used, its table has the capacity that its resizes tell, and its buckets and
its links have this length. So has every column, unless an operation was refused space after the
first column had its own, and the table has not doubled since. No operation addresses a slot that is
not there, and a slot that is given out again holds the new key, its value or the empty one, and the
stamp of this touch. -/
theorem run_in_step (hvalid : config.validate = .ok ()) (hasher : κ → UInt64)
    (ops : List (Op κ ν)) :
    ∃ m₀ replies m, ofConfig config hasher = .ok m₀ ∧ m₀.run ops = .ok (replies, m) ∧
      m.InStep config ∧
      ((∀ op ∈ ops, op.Served config.maxCapacity) → ∀ n ∈ m.lengths, n = m.capacity) ∧
      (∃ view, m.view = .ok view) ∧ (∀ key, ∃ stamp, m.stamp key = .ok stamp) ∧
      ∀ op, ∃ reply m', m.apply op = .ok (reply, m') ∧
        (m'.Spare ↔ m'.capacity = m.capacity ∧ (m.Spare ∨
          (∃ requested limit, reply = .error (.full requested limit)) ∧
            2 * m.capacity ≤ config.maxCapacity ∧ ∃ grants r, op.grants? = some grants ∧
              (config.requests (2 * m.capacity)).head? = some r ∧ grants r = true)) ∧
        ∀ s, m.chains.contains (some s) = false → m'.chains.contains (some s) = true →
          ∃ key given, op.binding? = some (key, given) ∧ m'.record s =
            ⟨some (m.hashOf key), some key, given.or config.emptyValue, m'.clock⟩ := by
  obtain ⟨m₀, hnew, h₀⟩ := ofConfig_represents (ν := ν) hvalid hasher
  obtain ⟨replies, m, M, hrun, -, h⟩ := h₀.run_answers ops
  have hspace := ofConfig_bounded hnew
  refine ⟨m₀, replies, m, hnew, hrun, h₀.run_inStep hnew hrun h, fun hserved => ?_,
    h.sound.view_eq.imp fun _ => And.left, h.sound.stamp_of_key, fun op => ?_⟩
  · have heven := h₀.run_even hspace hserved (ofConfig_even h₀.sound hnew) hrun
    simpa only [Spare, not_exists, not_and, not_not] using heven
  · obtain ⟨reply, m', M', hop, -, h'⟩ := h.apply_answers op
    refine ⟨reply, m', hop, h.apply_spare (h₀.run_bounded hspace hrun) hop,
      fun s hfree hlive => ?_⟩
    obtain ⟨touched, -, heffect⟩ := h.sound.apply_effect hop
    obtain ⟨hash, hlive⟩ := Chains.contains_iff_hash?.mp hlive
    rw [← h.config]
    exact heffect.record_of_reused (Chains.hash?_eq_none.mpr hfree) hlive

/-- One slot and at most two, with stamps. -/
def Config.twoSlots : Config := { oneSlot with maxCapacity := 2 }

/-- Grants the columns what they ask for, and no buckets. -/
def grantsNoBuckets : Allocator := fun r => decide (r.backing ≠ .buckets)

/-- The columns of this map have doubled for a key that the table then refused. -/
theorem run_in_step_refused :
    Config.twoSlots.validate = .ok () ∧ ∃ (m₀ : Map String String) (replies : _) (m : _),
      ofConfig Config.twoSlots (fun _ => 0) = .ok m₀ ∧
        m₀.run [.put (.int32 1) (.int32 5) .addressable,
          .put (.int32 2) (.int32 5) grantsNoBuckets] = .ok (replies, m) ∧
        replies = [.value none, .error (.full 2 1)] ∧ m.InStep Config.twoSlots ∧
        m.lengths = [1, 1, 2, 2, 2] := by
  have hvalid : Config.twoSlots.validate = .ok () := by decide
  obtain ⟨m₀, replies, m, hnew, hrun, hstep, -⟩ :=
    run_in_step (ν := String) hvalid (fun _ : String => 0)
      [.put (.int32 1) (.int32 5) .addressable, .put (.int32 2) (.int32 5) grantsNoBuckets]
  refine ⟨hvalid, m₀, replies, m, hnew, hrun, ?_⟩
  cases hnew
  cases hrun
  exact ⟨rfl, hstep, rfl⟩

end Map
end TableIndex
