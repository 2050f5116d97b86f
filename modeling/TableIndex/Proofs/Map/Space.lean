import Mathlib.Logic.Function.Basic
import TableIndex.Map.Basic
import TableIndex.Proofs.Map.Entries
import TableIndex.Proofs.Map.Resizing
import TableIndex.Proofs.Slot.Recency

/-!
# The space of a map

A map that is loaded to its limit needs twice its slots for a new key. It asks for the space of its
columns, one after the other, and then for that of its table, all of it at once. A refusal ends the
growth, and what was given before it stays.
-/

namespace TableIndex

/-- The bytes of one datum; a reference is a text with its length and its capacity. -/
def Representation.width : Representation → Nat
  | .reference => 24
  | .int32 => 4
  | .int64 => 8

theorem Column.width_eq {ρ : Type} (c : Column ρ) : c.width = c.representation.width := by
  cases c <;> rfl

/-- How many cells there are for each purpose. -/
abbrev Space := Backing → Nat

namespace Space

variable {space : Space} {grants : Allocator} {rs : List Reservation} {n : Nat}

def take (space : Space) (r : Reservation) : Space :=
  Function.update space r.backing (max (space r.backing) r.slots)

/-- Requests made in turn, up to the first that is refused. Cells that are there are not asked
for. -/
def supply (grants : Allocator) : Space → List Reservation → Except Error Unit × Space
  | space, [] => (.ok (), space)
  | space, r :: rest =>
      if r.slots ≤ space r.backing ∨ grants r = true then supply grants (space.take r) rest
      else (.error (.full r.slots (space r.backing)), space)

private theorem le_take (r : Reservation) (b : Backing) : space b ≤ space.take r b := by
  unfold take
  by_cases hb : b = r.backing
  · rw [hb, Function.update_self]
    exact le_max_left _ _
  · rw [Function.update_of_ne hb]

theorem supply_append (more : List Reservation) :
    space.supply grants (rs ++ more) =
      match space.supply grants rs with
      | (.error e, space) => (.error e, space)
      | (.ok (), space) => space.supply grants more := by
  induction rs generalizing space with
  | nil => rfl
  | cons r rs ih =>
      simp only [List.cons_append, supply]
      split
      · exact ih
      · rfl

private theorem supply_of_granted {r : Reservation}
    (h : space r.backing < r.slots → grants r = true) :
    space.supply grants [r] = (.ok (), space.take r) := by
  have hgiven : r.slots ≤ space r.backing ∨ grants r = true :=
    (le_or_gt r.slots (space r.backing)).imp_right h
  rw [supply, if_pos hgiven, supply]

private theorem supply_of_refused {r : Reservation} (hlt : space r.backing < r.slots)
    (hrefused : grants r = false) :
    space.supply grants [r] = (.error (.full r.slots (space r.backing)), space) := by
  have hnot : ¬ (r.slots ≤ space r.backing ∨ grants r = true) := by
    simp [hrefused, hlt]
  rw [supply, if_neg hnot]

private theorem supply_apply (space : Space) (grants : Allocator) (hslots : ∀ r ∈ rs, r.slots = n)
    (b : Backing) :
    (space.supply grants rs).2 b = space b ∨
      b ∈ rs.map Reservation.backing ∧ (space.supply grants rs).2 b = max (space b) n := by
  induction rs generalizing space with
  | nil => exact .inl rfl
  | cons r rs ih =>
      rw [supply]
      split
      · rcases ih (space.take r) fun r hr => hslots r (by simp [hr]) with hkept | ⟨hb, hmax⟩
        · rw [hkept]
          by_cases hb : b = r.backing
          · refine .inr ⟨by simp [hb], ?_⟩
            rw [take, hb, Function.update_self, hslots r (by simp)]
          · exact .inl (by rw [take, Function.update_of_ne hb])
        · refine .inr ⟨by simp [hb], ?_⟩
          rw [hmax, take]
          by_cases hb : b = r.backing
          · rw [hb, Function.update_self, hslots r (by simp), max_assoc, max_self]
          · rw [Function.update_of_ne hb]
      · exact .inl rfl

private theorem le_supply (space : Space) (grants : Allocator) (rs : List Reservation)
    (b : Backing) :
    space b ≤ (space.supply grants rs).2 b := by
  induction rs generalizing space with
  | nil => exact le_rfl
  | cons r rs ih =>
      rw [supply]
      split
      · exact (le_take r b).trans (ih _)
      · exact le_rfl

theorem supply_ok {space' : Space} (h : space.supply grants rs = (.ok (), space')) :
    ∀ r ∈ rs, r.slots ≤ space' r.backing := by
  induction rs generalizing space with
  | nil => simp
  | cons r rs ih =>
      rw [supply] at h
      split at h
      · refine List.forall_mem_cons.mpr ⟨?_, ih h⟩
        have hle := le_supply (space.take r) grants rs r.backing
        rw [h] at hle
        refine le_trans ?_ hle
        rw [take, Function.update_self]
        exact le_max_right _ _
      · cases h

theorem supply_error {e : Error} {space' : Space}
    (h : space.supply grants rs = (.error e, space')) :
    ∃ requested limit, e = .full requested limit := by
  induction rs generalizing space with
  | nil => cases h
  | cons r rs ih =>
      rw [supply] at h
      split at h
      · exact ih h
      · cases h
        exact ⟨_, _, rfl⟩

end Space

theorem Column.grow_supply {ρ : Type} (c : Column ρ) {b : Backing} (slots : Nat)
    (grants : Allocator) {space : Space} (hcells : space b = c.capacity) :
    (c.grow b slots grants = .error (.full slots c.capacity) ∧
        space.supply grants [⟨b, slots, c.width⟩] = (.error (.full slots c.capacity), space)) ∨
      ∃ c', c.grow b slots grants = .ok c' ∧ c.Grows c' ∧ c'.capacity = max c.capacity slots ∧
        space.supply grants [⟨b, slots, c.width⟩] = (.ok (), space.take ⟨b, slots, c.width⟩) := by
  rcases c.grow_cases b slots grants with ⟨hrun, hrefused, hlt⟩ | ⟨c', hrun, hgrows, hcap, hgranted⟩
  · refine .inl ⟨hrun, ?_⟩
    rw [Space.supply_of_refused (hcells.trans_lt hlt) hrefused, hcells]
  · exact .inr ⟨c', hrun, hgrows, hcap,
      Space.supply_of_granted fun hlt => hgranted (hcells.symm.trans_lt hlt)⟩

theorem Recency.grow_supply (r : Recency) (slots : Nat) (grants : Allocator) {space : Space}
    (hcells : space .counters = r.capacity) :
    (r.grow slots grants = .error (.full slots r.capacity) ∧
        space.supply grants [⟨.counters, slots, 8⟩] = (.error (.full slots r.capacity), space)) ∨
      ∃ r', r.grow slots grants = .ok r' ∧ r'.capacity = max r.capacity slots ∧
        r'.clock = r.clock ∧ (∀ u, r'.mark u = r.mark u) ∧
        space.supply grants [⟨.counters, slots, 8⟩] =
          (.ok (), space.take ⟨.counters, slots, 8⟩) := by
  rcases r.grow_cases slots grants with
    ⟨hrun, hrefused, hlt⟩ | ⟨r', hrun, hcap, hclock, hmark, hgranted⟩
  · refine .inl ⟨hrun, ?_⟩
    rw [Space.supply_of_refused (hcells.trans_lt hlt) hrefused, hcells]
  · exact .inr ⟨r', hrun, hcap, hclock, hmark,
      Space.supply_of_granted fun hlt => hgranted (hcells.symm.trans_lt hlt)⟩

namespace Map.Config

/-- What each column is for and the bytes of its cells, in the order in which they grow. -/
def columns (config : Config) : List (Backing × Nat) :=
  (config.value.map fun r => (.values, r.width)).toList ++ [(.keys, config.key.width)] ++
    if config.trackAccess then [(.counters, 8)] else []

/-- The requests of the columns for so many cells. -/
def requests (config : Config) (slots : Nat) : List Reservation :=
  config.columns.map fun (backing, width) => ⟨backing, slots, width⟩

/-- The space of a new map. -/
def newSpace (config : Config) : Space
  | .records | .marks | .buckets | .keys => config.initialSlots
  | .values => if config.isSet then 0 else config.initialSlots
  | .counters => if config.trackAccess then config.initialSlots else 0

/-- Whether a map of `size` keys with this space gets a slot for a new one, and the space that it
has then. -/
def allot (config : Config) (space : Space) (size : Nat) (grants : Allocator) :
    Except Error Unit × Space :=
  let slots := space .buckets
  if size < Chains.limitFor slots config.loadFactor then (.ok (), space)
  else if config.maxCapacity < 2 * slots then
    (.error (.full (2 * slots) config.maxCapacity), space)
  else match space.supply grants (config.requests (2 * slots)) with
    | (.error e, space) => (.error e, space)
    | (.ok (), space) =>
        if (Chains.space (2 * slots)).all grants then
          (.ok (), (Chains.space (2 * slots)).foldl Space.take space)
        else (.error (.full (2 * slots) slots), space)

variable {config : Config} {space space' : Space} {size : Nat} {grants : Allocator}
  {answer : Except Error Unit}

theorem allot_of_lt (hroom : size < Chains.limitFor (space .buckets) config.loadFactor) :
    config.allot space size grants = (.ok (), space) := if_pos hroom

theorem allot_of_max (hfull : ¬ size < Chains.limitFor (space .buckets) config.loadFactor)
    (hmax : config.maxCapacity < 2 * space .buckets) :
    config.allot space size grants =
      (.error (.full (2 * space .buckets) config.maxCapacity), space) :=
  (if_neg hfull).trans (if_pos hmax)

theorem allot_of_refused (hfull : ¬ size < Chains.limitFor (space .buckets) config.loadFactor)
    (hmax : ¬ config.maxCapacity < 2 * space .buckets) {e : Error}
    (hcolumns : space.supply grants (config.requests (2 * space .buckets)) = (.error e, space')) :
    config.allot space size grants = (.error e, space') := by
  simp only [allot, if_neg hfull, if_neg hmax, hcolumns]

theorem allot_of_granted (hfull : ¬ size < Chains.limitFor (space .buckets) config.loadFactor)
    (hmax : ¬ config.maxCapacity < 2 * space .buckets)
    (hcolumns : space.supply grants (config.requests (2 * space .buckets)) = (.ok (), space')) :
    config.allot space size grants =
      if (Chains.space (2 * space .buckets)).all grants then
        (.ok (), (Chains.space (2 * space .buckets)).foldl Space.take space')
      else (.error (.full (2 * space .buckets) (space .buckets)), space') := by
  simp only [allot, if_neg hfull, if_neg hmax, hcolumns]

theorem requests_eq (config : Config) (slots : Nat) :
    config.requests slots =
      (config.value.map fun r => (⟨.values, slots, r.width⟩ : Reservation)).toList ++
        ([⟨.keys, slots, config.key.width⟩] ++
          if config.trackAccess then [⟨.counters, slots, 8⟩] else []) := by
  unfold requests columns
  cases config.value <;> cases config.trackAccess <;> rfl

private theorem not_table {p : Backing × Nat} (h : p ∈ config.columns) :
    ¬ (p.1 = .buckets ∨ p.1 = .records ∨ p.1 = .marks) := by
  unfold columns at h
  simp only [List.mem_append, Option.mem_toList, Option.map_eq_some_iff, List.mem_singleton] at h
  rcases h with (⟨r, -, rfl⟩ | rfl) | hp
  · simp
  · simp
  · split at hp
    · simp only [List.mem_singleton] at hp
      simp [hp]
    · cases hp

private theorem columns_ne_nil (config : Config) : config.columns ≠ [] := by simp [columns]

private theorem slots_of_mem_requests (config : Config) (slots : Nat) :
    ∀ r ∈ config.requests slots, r.slots = slots := by
  intro r hr
  obtain ⟨p, -, rfl⟩ := List.mem_map.mp hr
  rfl

private theorem mem_requests {slots : Nat} {p : Backing × Nat} (h : p ∈ config.columns) :
    (⟨p.1, slots, p.2⟩ : Reservation) ∈ config.requests slots := List.mem_map.mpr ⟨p, h, rfl⟩

private theorem requests_backings (config : Config) (slots : Nat) :
    (config.requests slots).map Reservation.backing = config.columns.map Prod.fst := by
  simp [requests, Function.comp_def]

private theorem supply_buckets (config : Config) (space : Space) (grants : Allocator)
    (slots : Nat) :
    (space.supply grants (config.requests slots)).2 .buckets = space .buckets := by
  rcases Space.supply_apply space grants (slots_of_mem_requests config slots) .buckets with
    hkept | ⟨hmem, -⟩
  · exact hkept
  · rw [requests_backings] at hmem
    obtain ⟨p, hp, hbackings⟩ := List.mem_map.mp hmem
    exact absurd (.inl hbackings) (not_table hp)

private theorem table_apply (slots : Nat) (b : Backing) :
    (Chains.space slots).foldl Space.take space b =
      if b = .buckets ∨ b = .records ∨ b = .marks then max (space b) slots else space b := by
  simp only [Chains.space, Arena.space, List.foldl_cons, List.foldl_nil, Space.take]
  cases b <;> simp [Function.update]

/-- No column grows, or the columns grow as far as they are granted space, and all of them if the
table grows. -/
private theorem allot_cases (h : config.allot space size grants = (answer, space')) :
    (space' = space ∧ (answer = .ok () ∨ config.maxCapacity < 2 * space .buckets)) ∨
      2 * space .buckets ≤ config.maxCapacity ∧
        ((∃ e, answer = .error e) ∧
            space' = (space.supply grants (config.requests (2 * space .buckets))).2 ∨
          answer = .ok () ∧ space' .buckets = 2 * space .buckets ∧
            ∀ p ∈ config.columns, space' p.1 = max (space p.1) (2 * space .buckets)) := by
  unfold allot at h
  dsimp only at h
  split at h
  · cases h
    exact .inl ⟨rfl, .inl rfl⟩
  split at h
  · next hmax =>
      cases h
      exact .inl ⟨rfl, .inr hmax⟩
  next hmax =>
  refine .inr ⟨not_lt.mp hmax, ?_⟩
  split at h
  · next hsupply =>
      cases h
      exact .inl ⟨⟨_, rfl⟩, by rw [hsupply]⟩
  next given hsupply =>
  split at h
  · cases h
    have hbuckets := supply_buckets config space grants (2 * space .buckets)
    rw [hsupply] at hbuckets
    refine .inr ⟨rfl, ?_, fun p hp => ?_⟩
    · rw [table_apply, if_pos (.inl rfl), show given .buckets = _ from hbuckets]
      omega
    · have hle := Space.supply_ok hsupply _ (mem_requests hp)
      have hgiven := Space.supply_apply space grants
        (slots_of_mem_requests config (2 * space .buckets)) p.1
      rw [hsupply] at hgiven
      rw [table_apply, if_neg (not_table hp)]
      rcases hgiven with hkept | ⟨-, hmax⟩
      · have hcells : given p.1 = space p.1 := hkept
        rw [hcells, max_eq_left (hle.trans_eq hcells)]
      · exact hmax
  · cases h
    exact .inl ⟨⟨_, rfl⟩, by rw [hsupply]⟩

/-- Every column is as long as the table or twice as long. -/
def Bounded (config : Config) (space : Space) : Prop :=
  ∀ p ∈ config.columns, space p.1 = space .buckets ∨ space p.1 = 2 * space .buckets

/-- Some column is not as long as the table. -/
def Spare (config : Config) (space : Space) : Prop :=
  ∃ p ∈ config.columns, space p.1 ≠ space .buckets

theorem allot_bounded (hspace : config.Bounded space)
    (h : config.allot space size grants = (answer, space')) : config.Bounded space' := by
  rcases allot_cases h with ⟨rfl, -⟩ | ⟨-, ⟨-, rfl⟩ | ⟨-, hbuckets, hall⟩⟩
  · exact hspace
  · intro p hp
    rw [supply_buckets]
    rcases Space.supply_apply space grants
      (slots_of_mem_requests config (2 * space .buckets)) p.1 with hkept | ⟨-, hmax⟩
    · rw [hkept]
      exact hspace p hp
    · right
      rw [hmax]
      rcases hspace p hp with hcells | hcells <;> omega
  · intro p hp
    left
    rw [hall p hp, hbuckets]
    rcases hspace p hp with hcells | hcells <;> omega

private theorem supply_spare (hspace : config.Bounded space) (hpos : 0 < space .buckets) :
    config.Spare (space.supply grants (config.requests (2 * space .buckets))).2 ↔
      config.Spare space ∨
        ∃ r ∈ (config.requests (2 * space .buckets)).head?, grants r = true := by
  obtain ⟨first, rest, hcolumns⟩ := List.exists_cons_of_ne_nil config.columns_ne_nil
  have hfirst : first ∈ config.columns := hcolumns ▸ List.mem_cons_self ..
  have hrequests : config.requests (2 * space .buckets) =
      ⟨first.1, 2 * space .buckets, first.2⟩ ::
        rest.map fun p => ⟨p.1, 2 * space .buckets, p.2⟩ := by
    rw [requests, hcolumns]
    rfl
  constructor
  · rintro ⟨p, hp, hne⟩
    by_contra hnone
    obtain ⟨heven, hrefused⟩ := not_or.mp hnone
    have hcells : ∀ q ∈ config.columns, space q.1 = space .buckets := fun q hq => by
      by_contra hq'
      exact heven ⟨q, hq, hq'⟩
    -- a refusal of the first request ends the growth before anything has changed
    refine hne ?_
    rw [supply_buckets, hrequests, Space.supply, if_neg]
    · exact hcells p hp
    · simp only [hrequests, List.head?_cons, Option.mem_def, Option.some.injEq,
        exists_eq_left'] at hrefused
      have := hcells first hfirst
      simp only [hrefused, not_or, not_le]
      exact ⟨by omega, by simp⟩
  · rintro (⟨p, hp, hne⟩ | ⟨r, hr, hgranted⟩)
    · refine ⟨p, hp, ?_⟩
      have hle := Space.le_supply space grants (config.requests (2 * space .buckets)) p.1
      rw [supply_buckets]
      rcases hspace p hp with hcells | hcells
      · exact absurd hcells hne
      · omega
    · refine ⟨first, hfirst, ?_⟩
      rw [supply_buckets]
      rw [hrequests] at hr ⊢
      obtain rfl := Option.some.inj hr
      rw [Space.supply, if_pos (.inr hgranted)]
      have hle := Space.le_supply (space.take ⟨first.1, 2 * space .buckets, first.2⟩) grants
        (rest.map fun p => ⟨p.1, 2 * space .buckets, p.2⟩) first.1
      have htaken : space.take ⟨first.1, 2 * space .buckets, first.2⟩ first.1 =
          max (space first.1) (2 * space .buckets) := Function.update_self ..
      omega

/-- A column gets ahead of the table if the first request is granted and the growth fails later. It
stays ahead until the table grows. -/
theorem allot_spare (hspace : config.Bounded space) (hpos : 0 < space .buckets)
    (h : config.allot space size grants = (answer, space')) :
    config.Spare space' ↔ space' .buckets = space .buckets ∧ (config.Spare space ∨
      (∃ e, answer = .error e) ∧ 2 * space .buckets ≤ config.maxCapacity ∧
        ∃ r ∈ (config.requests (2 * space .buckets)).head?, grants r = true) := by
  rcases allot_cases h with ⟨rfl, hkept⟩ | ⟨hmax, ⟨hfailed, rfl⟩ | ⟨rfl, hbuckets, hall⟩⟩
  · refine ⟨fun hs => ⟨rfl, .inl hs⟩, fun ⟨_, hs⟩ => hs.resolve_right ?_⟩
    rintro ⟨⟨e, rfl⟩, hmax, -⟩
    rcases hkept with hok | hlt
    · cases hok
    · exact not_le.mpr hlt hmax
  · simp only [supply_buckets, supply_spare hspace hpos, hfailed, hmax, true_and]
  · refine iff_of_false ?_ fun hs => ?_
    · rintro ⟨p, hp, hne⟩
      rw [hall p hp, hbuckets] at hne
      rcases hspace p hp with hcells | hcells <;> omega
    · have := hs.1
      omega

end Map.Config
end TableIndex
