import Mathlib.Data.List.Nodup
import TableIndex.Proofs.Hash.Inversion
import TableIndex.Proofs.Map.Refinement

/-!
# Maps with integer keys

Different integer keys of one representation have different hashes. However a map with such keys was
used, each of its live slots has a hash of its own, and of the slots in a bucket the chain of a hash
picks one at most: the slot that holds the key with this hash.
-/

namespace TableIndex.Map

variable {κ ν : Type} {m : Map κ ν} {s u : Slot} {key key' : Datum κ} {hash : UInt64}

private theorem eq_of_hashOf_eq (hinteger : key.representation.isInteger = true)
    (hrep : key'.representation = key.representation) (h : m.hashOf key = m.hashOf key') :
    key = key' := by
  cases key with
  | reference r => cases hinteger
  | int32 n => cases key' with
    | int32 n' => rw [Hash.ofInt32_injective h]
    | _ => cases hrep
  | int64 n => cases key' with
    | int64 n' => rw [Hash.ofInt64_injective h]
    | _ => cases hrep

/-- The live slots have the hashes of their keys, no two of them the same, and the chain of the hash
of a key is the slot that holds the key, or empty. -/
structure TellsApart (m : Map κ ν) (r : Representation) : Prop where
  hashes : ∃ keys, m.keys = .ok keys ∧
    (m.chains.inUse.mapM fun s => m.chains.hashAt (some s)) = .ok (keys.map m.hashOf) ∧
      (keys.map m.hashOf).Nodup
  chain : ∀ key : Datum κ, key.representation = r → ∃ slot : Link,
    m.chains.chain (m.hashOf key) = .ok slot.toList ∧
      ∀ s, slot = some s ↔ s ∈ m.chains.inUse ∧ m.entries.keyAt (some s) = .ok (some key)

namespace Sound

private theorem keys_eq (h : m.Sound) : m.keys = .ok (m.chains.inUse.filterMap m.entries.key) := by
  have hrun : (m.chains.inUse.mapM fun s => m.entries.keyAt (some s)) =
      .ok (m.chains.inUse.map m.entries.key) :=
    mapM_of_forall fun s hs => Entries.keyAt_eq h.room (h.lt_of_mem_inUse hs)
  rw [Map.keys, hrun, ok_bind, pure_eq_ok, List.filterMap_map, Function.id_comp]

private theorem map_hashOf_key (h : m.Sound) (hs : s ∈ m.chains.inUse) :
    (m.entries.key s).map m.hashOf = m.chains.hash? s := by
  obtain ⟨hash, hlive⟩ := h.mem_inUse.mp hs
  obtain ⟨key, hkey, -, rfl⟩ := h.hashed s hash hlive
  rw [hkey, hlive, Option.map_some]

private theorem holds_iff_keyAt (h : m.Sound) :
    m.Holds s key ↔ s ∈ m.chains.inUse ∧ m.entries.keyAt (some s) = .ok (some key) := by
  rw [Holds, ← h.mem_inUse]
  refine and_congr_right fun hs => ?_
  rw [Entries.keyAt_eq h.room (h.lt_of_mem_inUse hs), Except.ok.injEq]

private theorem holds_iff_hash? (h : m.Sound) (hinteger : m.config.key.isInteger = true)
    (hrep : key.representation = m.config.key) :
    m.Holds s key ↔ m.chains.hash? s = some (m.hashOf key) := by
  constructor
  · exact h.hash?_of_holds
  · intro hs
    obtain ⟨key', hkey', hrep', hhash⟩ := h.hashed s _ hs
    obtain rfl : key' = key :=
      eq_of_hashOf_eq (hrep' ▸ hinteger) (hrep.trans hrep'.symm) hhash
    exact ⟨⟨_, hs⟩, hkey'⟩

private theorem eq_of_hash? (h : m.Sound) (hinteger : m.config.key.isInteger = true)
    (hs : m.chains.hash? s = some hash) (hu : m.chains.hash? u = some hash) : s = u := by
  obtain ⟨key, -, hrep, rfl⟩ := h.hashed s hash hs
  have hs : m.Holds s key := (h.holds_iff_hash? hinteger hrep).mpr hs
  have hu : m.Holds u key := (h.holds_iff_hash? hinteger hrep).mpr hu
  exact h.distinct s u key hs hu

private theorem chain_eq_toList (h : m.Sound) (hinteger : m.config.key.isInteger = true)
    (hash : UInt64) :
    ∃ slot : Link, m.chains.chain hash = .ok slot.toList ∧
      ∀ s, slot = some s ↔ m.chains.hash? s = some hash := by
  obtain ⟨slots, hrun, hnodup, hmem⟩ := Chains.chain_eq h.chains hash
  cases slots with
  | nil => exact ⟨none, hrun, fun s => by rw [← hmem]; simp⟩
  | cons s rest =>
      have hs : m.chains.hash? s = some hash := (hmem s).mp (by simp)
      -- another slot of the chain would have the same hash
      obtain rfl : rest = [] := by
        refine List.eq_nil_iff_forall_not_mem.mpr fun u hu => (List.nodup_cons.mp hnodup).1 ?_
        rwa [h.eq_of_hash? hinteger hs ((hmem u).mp (by simp [hu]))]
      exact ⟨some s, hrun, fun u => by rw [← hmem]; simp [eq_comm]⟩

private theorem tellsApart (h : m.Sound) (hinteger : m.config.key.isInteger = true) :
    m.TellsApart m.config.key where
  hashes := by
    have hhashes : (m.chains.inUse.filterMap m.entries.key).map m.hashOf =
        m.chains.inUse.filterMap m.chains.hash? := by
      rw [List.map_filterMap]
      exact List.filterMap_congr fun s hs => h.map_hashOf_key hs
    refine ⟨_, h.keys_eq, ?_, ?_⟩
    · rw [hhashes]
      exact Chains.mapM_hashAt fun s hs => h.mem_inUse.mp hs
    · rw [hhashes]
      exact (Arena.inUse_nodup _).filterMap fun s u hash hs hu => h.eq_of_hash? hinteger hs hu
  chain := by
    intro key hrep
    obtain ⟨slot, hrun, hslot⟩ := h.chain_eq_toList hinteger (m.hashOf key)
    refine ⟨slot, hrun, fun s => ?_⟩
    rw [hslot, ← h.holds_iff_hash? hinteger hrep, h.holds_iff_keyAt]

end Sound

variable [DecidableEq κ]

/-- The hash is one to one on the integers of 64 bits, and different on different integers of 32. So
whatever is done to a new map with integer keys, no two of its keys ever have one hash, and a chain
of a key's hash has no other slot than that of the key. -/
theorem integer_hashes_distinct :
    Function.Bijective Hash.ofInt64 ∧ Function.Injective Hash.ofInt32 ∧
      ∀ config : Config, config.validate = .ok () → config.key.isInteger = true →
        ∀ hasher : κ → UInt64, ∃ m₀ : Map κ ν, ofConfig config hasher = .ok m₀ ∧
          ∀ ops : List (Op κ ν), ∃ replies m, m₀.run ops = .ok (replies, m) ∧
            m.TellsApart config.key := by
  refine ⟨Hash.int64Equiv.bijective, Hash.ofInt32_injective,
    fun config hvalid hinteger hasher => ?_⟩
  obtain ⟨m₀, hnew, h₀⟩ := ofConfig_represents (ν := ν) hvalid hasher
  refine ⟨m₀, hnew, fun ops => ?_⟩
  obtain ⟨replies, m, M, hrun, -, h⟩ := h₀.run_answers ops
  have hconfig : m.config = config := h.config
  refine ⟨replies, m, hrun, ?_⟩
  rw [← hconfig] at hinteger ⊢
  exact h.sound.tellsApart hinteger

/-- Three keys in one bucket, which the chains of their hashes tell apart. -/
theorem integer_hashes_distinct_one_bucket :
    ({ key := .int32, value := none, initialCapacity := 4 } : Config).validate = .ok () ∧
      Representation.int32.isInteger = true ∧
      ∃ m₀ m : Map String String,
        ofConfig { key := .int32, value := none, initialCapacity := 4 } (fun _ => 0) = .ok m₀ ∧
          m₀.run [.add (.int32 1) .addressable, .add (.int32 3) .addressable,
              .add (.int32 (-2)) .addressable] = .ok ([.flag true, .flag true, .flag true], m) ∧
            m.chains.chainFrom (m.chains.head (m.hashOf (.int32 1))) = .ok [2, 1, 0] ∧
              m.TellsApart .int32 := by
  obtain ⟨m₀, hnew, hops⟩ := (integer_hashes_distinct (κ := String) (ν := String)).2.2
    { key := .int32, value := none, initialCapacity := 4 } (by decide) rfl fun _ => 0
  obtain ⟨replies, m, hrun, hm⟩ := hops [.add (.int32 1) .addressable,
    .add (.int32 3) .addressable, .add (.int32 (-2)) .addressable]
  obtain rfl := Except.ok.inj hnew
  obtain ⟨rfl, rfl⟩ := Prod.mk.inj (Except.ok.inj hrun)
  exact ⟨by decide, rfl, _, _, rfl, rfl, rfl, hm⟩

end TableIndex.Map
