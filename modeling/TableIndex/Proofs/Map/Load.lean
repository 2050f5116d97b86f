import Mathlib.Algebra.Order.Floor.Semifield
import TableIndex.Proofs.Binary.Scale
import TableIndex.Proofs.Map.TableRuns

/-!
# The load limit

A table that is loaded to its limit doubles once before it takes another slot. The limit of the
larger table leaves room for this slot, unless the load factor takes less than one slot of the
smaller one: then both limits are 1. From there a table can run ahead of its limit, by one slot with
each doubling.
-/

namespace TableIndex

namespace Chains

open Binary (binary32)

variable {c c' : Chains} {capacity : Nat} {loadFactor : UInt32}

/-- The load factor as a number. -/
def share (loadFactor : UInt32) : ℚ := binary32.value loadFactor.toNat

/-- The load factor is one that a table can be given. -/
def Shares (loadFactor : UInt32) : Prop := 0 < share loadFactor ∧ share loadFactor ≤ 1

private theorem share_eq (loadFactor : UInt32) :
    share loadFactor = binary32.units loadFactor.toNat / (Nat.pow 2 binary32.unitPlaces : Nat) := by
  rw [share, Binary.Format.value_eq (by decide)]
  rfl

private theorem shares_iff :
    Shares loadFactor ↔ 0 < binary32.units loadFactor.toNat ∧
      binary32.units loadFactor.toNat ≤ (Nat.pow 2 binary32.unitPlaces : Nat) := by
  have hunit : (0 : ℚ) < (Nat.pow 2 binary32.unitPlaces : Nat) :=
    Nat.cast_pos.mpr (Nat.two_pow_pos _)
  rw [Shares, share_eq, div_pos_iff_of_pos_right hunit, div_le_one hunit]
  exact and_congr (by norm_cast) (by norm_cast)

private theorem isNaN_of_shares (h : Shares loadFactor) :
    binary32.isNaN loadFactor.toNat = false := by
  obtain ⟨hpos, hle⟩ := shares_iff.mp h
  have hunits : binary32.units loadFactor.toNat = binary32.magnitude loadFactor.toNat := by
    rw [Binary.Format.units] at hpos ⊢
    split at hpos
    · omega
    · next hsign => rw [if_neg hsign]
  rw [hunits] at hle
  by_contra hnan
  have hfar : binary32.magnitude binary32.infinity < binary32.magnitude loadFactor.toNat :=
    Binary.Format.magnitude_lt_of_unsigned_lt
      ((show binary32.unsigned binary32.infinity = binary32.infinity by decide).trans_lt
        (of_decide_eq_true (Bool.eq_true_of_not_eq_false hnan)))
  have hinfinity : Nat.pow 2 binary32.unitPlaces < binary32.magnitude binary32.infinity := by
    decide +kernel
  omega

private theorem limitFor_eq (h : Shares loadFactor) (capacity : Nat) :
    limitFor capacity loadFactor = max 1 ⌊capacity * share loadFactor⌋₊ := by
  obtain ⟨hpos, hle⟩ := shares_iff.mp h
  obtain ⟨u, hu⟩ := Int.eq_ofNat_of_zero_le hpos.le
  rw [hu, Int.ofNat_le] at hle
  have hfloor : ⌊capacity * share loadFactor⌋₊ =
      capacity * u / Nat.pow 2 binary32.unitPlaces := by
    rw [share_eq, hu, Int.cast_natCast, mul_div_assoc', ← Nat.cast_mul, Nat.floor_div_eq_div]
  have hmin : capacity * u / Nat.pow 2 binary32.unitPlaces ≤ capacity := by
    refine Nat.div_le_of_le_mul ?_
    rw [Nat.mul_comm _ capacity]
    exact Nat.mul_le_mul_left capacity hle
  rw [limitFor, hfloor]
  simp only [isNaN_of_shares h, Bool.false_eq_true, if_false, hu, Int.toNat_natCast]
  rw [min_eq_right hmin]

private theorem limitFor_double (h : Shares loadFactor) (hroom : 1 ≤ capacity * share loadFactor) :
    limitFor capacity loadFactor + 1 ≤ limitFor (2 * capacity) loadFactor := by
  have hpos : 0 < share loadFactor := h.1
  have hfloor : 1 ≤ ⌊capacity * share loadFactor⌋₊ := Nat.le_floor (by exact_mod_cast hroom)
  have hdouble :
      ⌊capacity * share loadFactor⌋₊ + 1 ≤ ⌊(2 * capacity : Nat) * share loadFactor⌋₊ := by
    rw [← Nat.floor_add_one (by positivity)]
    refine Nat.floor_le_floor ?_
    push_cast
    linarith
  rw [limitFor_eq h, limitFor_eq h, max_eq_right hfloor]
  exact hdouble.trans (le_max_right _ _)

private theorem limitFor_eq_one (h : Shares loadFactor) (hsmall : capacity * share loadFactor < 2) :
    limitFor capacity loadFactor = 1 := by
  have hpos : 0 < share loadFactor := h.1
  have hfloor : ⌊capacity * share loadFactor⌋₊ < 2 :=
    (Nat.floor_lt (by positivity)).mpr (by exact_mod_cast hsmall)
  rw [limitFor_eq h]
  omega

/-- A change takes slots away, adds one below the limit, or doubles the table and adds one. -/
inductive Grows (c c' : Chains) : Prop
  | kept (size : c'.size ≤ c.size) (capacity : c'.capacity = c.capacity)
  | added (room : c.size < c.limit) (size : c'.size = c.size + 1)
      (capacity : c'.capacity = c.capacity)
  | doubled (full : c.limit ≤ c.size) (allowed : 2 * c.capacity ≤ c.maxCapacity)
      (size : c'.size = c.size + 1) (capacity : c'.capacity = 2 * c.capacity)

structure Moves (c c' : Chains) : Prop where
  grows : c.Grows c'
  maxCapacity : c'.maxCapacity = c.maxCapacity
  loadFactor : c'.loadFactor = c.loadFactor
  /-- Doublings are counted. -/
  resizes : c'.capacity = c.capacity ∧ c'.resizes = c.resizes ∨
    c'.capacity = 2 * c.capacity ∧ c'.resizes = c.resizes + 1

private theorem Moves.refl (c : Chains) : c.Moves c := ⟨.kept le_rfl rfl, rfl, rfl, .inl ⟨rfl, rfl⟩⟩

private theorem lt_of_nextCapacity?_eq_none (hnext : c.nextCapacity? = none) :
    c.size < c.limit := by
  by_contra hfull
  have hlt : c.limit < c.size + 1 := Nat.lt_succ_of_le (not_lt.mp hfull)
  simp [nextCapacity?, hlt] at hnext

namespace Valid

private theorem insert_moves (h : c.Valid) {hash : UInt64} {grants : Allocator}
    {answer : Except Error Slot × Chains} (hrun : c.insert hash grants = .ok answer) :
    c.Moves answer.2 := by
  rcases insert_cases h.sound h.limited h.capacity_le h.maxCapacity_le hash grants with
    ⟨capacity, hrefused, -, -⟩ | ⟨s, c', hadded, hadds, hcap, hmax, hresizes, -⟩
  · obtain rfl := Except.ok.inj (hrefused.symm.trans hrun)
    exact .refl c
  · obtain rfl := Except.ok.inj (hadded.symm.trans hrun)
    cases hnext : c.nextCapacity? with
    | none =>
        rw [hnext] at hcap hresizes
        exact ⟨.added (lt_of_nextCapacity?_eq_none hnext) hadds.size hcap, hadds.maxCapacity,
          hadds.loadFactor, .inl ⟨hcap, hresizes⟩⟩
    | some capacity =>
        obtain ⟨rfl, hfull⟩ :=
          nextCapacity?_eq_some h.sound h.limited (h.capacity_le.trans h.maxCapacity_le) hnext
        rw [hnext] at hcap hresizes
        exact ⟨.doubled (h.limited.trans_le hfull) (hcap.symm.trans_le hmax) hadds.size hcap,
          hadds.maxCapacity, hadds.loadFactor, .inr ⟨hcap, hresizes⟩⟩

private theorem remove_moves (h : c.Valid) {hash : UInt64} {l : Link} {answer : Bool × Chains}
    (hrun : c.remove hash l = .ok answer) : c.Moves answer.2 := by
  by_cases hl : ∃ s own, l = some s ∧ c.hash? s = some own ∧
      Hash.bucket own c.mask = Hash.bucket hash c.mask
  · obtain ⟨s, own, rfl, hlive, hbucket⟩ := hl
    obtain ⟨c', hremoved, hdrops⟩ := remove_eq h.sound hlive hbucket
    obtain rfl := Except.ok.inj (hremoved.symm.trans hrun)
    exact ⟨.kept (hdrops.size ▸ Nat.le_succ _) hdrops.capacity, hdrops.maxCapacity,
      hdrops.loadFactor, .inl ⟨hdrops.capacity, hdrops.resizes⟩⟩
  · have hkept : c.remove hash l = .ok (false, c) :=
      remove_absent h.sound fun s own hs hlive hbucket => hl ⟨s, own, hs, hlive, hbucket⟩
    obtain rfl := Except.ok.inj (hkept.symm.trans hrun)
    exact .refl c

private theorem clear_moves (c : Chains) : c.Moves c.clear := by
  have hcap : c.clear.capacity = c.capacity := by simp [Chains.clear, Chains.capacity]
  refine ⟨.kept ?_ hcap, rfl, rfl, .inl ⟨hcap, rfl⟩⟩
  simp [Chains.clear, Chains.size, Arena.clear]

private theorem apply_moves (h : c.Valid) {op : Op} (hrun : c.apply op = .ok c') : c.Moves c' := by
  cases op with
  | insert hash grants =>
      obtain ⟨answer, hinsert, -, -⟩ := h.insert_answer hash grants
      rw [apply, hinsert] at hrun
      obtain rfl := Except.ok.inj hrun
      exact h.insert_moves hinsert
  | remove hash l =>
      obtain ⟨answer, hremove, -, -⟩ := h.remove_answer hash l
      rw [apply, hremove] at hrun
      obtain rfl := Except.ok.inj hrun
      exact h.remove_moves hremove
  | clear =>
      obtain rfl := Except.ok.inj hrun
      exact clear_moves c

theorem run_induction {P : Chains → Prop}
    (hstep : ∀ c c' : Chains, c.Valid → c'.Valid → c.Moves c' → P c → P c') (h : c.Valid)
    (hc : P c) {ops : List Op} (hrun : c.run ops = .ok c') : P c' := by
  induction ops generalizing c with
  | nil =>
      obtain rfl := Except.ok.inj hrun
      exact hc
  | cons op ops ih =>
      obtain ⟨c₁, hop, h₁⟩ := h.apply_valid op
      rw [run, hop, ok_bind] at hrun
      exact ih h₁ (hstep c c₁ h h₁ (h.apply_moves hop) hc) hrun

end Valid

/-- The limit and the live count of a table that began with `base` slots. The count is over the
limit by no more than the number of doublings. -/
structure Loaded (base : Nat) (loadFactor : UInt32) (c : Chains) : Prop where
  limit : c.limit = max 1 ⌊c.capacity * share loadFactor⌋₊
  size : c.size ≤ c.limit ∨ base * 2 ^ (c.size - 1) ≤ c.capacity

/-- The table may not grow, or the load factor takes at least one of its slots. -/
def Steady (c : Chains) : Prop :=
  c.maxCapacity < 2 * c.capacity ∨ 1 ≤ c.capacity * share c.loadFactor

private theorem Valid.limit_eq (h : c.Valid) (hshare : Shares c.loadFactor) :
    c.limit = max 1 ⌊c.capacity * share c.loadFactor⌋₊ :=
  h.limited.trans (limitFor_eq hshare _)

namespace Moves

private theorem limit_eq (h : c.Moves c') (hc : c.Valid) (hc' : c'.Valid)
    (hcap : c'.capacity = c.capacity) : c'.limit = c.limit := by
  rw [hc.limited, hc'.limited, hcap, h.loadFactor]

private theorem limit_lt (h : c.Moves c') (hc : c.Valid) (hc' : c'.Valid)
    (hshare : Shares c.loadFactor) (hcap : c'.capacity = 2 * c.capacity)
    (hroom : 1 ≤ c.capacity * share c.loadFactor) :
    c.limit + 1 ≤ c'.limit := by
  rw [hc.limited, hc'.limited, hcap, h.loadFactor]
  exact limitFor_double hshare hroom

theorem capacity_le (h : c.Moves c') : c.capacity ≤ c'.capacity := by
  cases h.grows with
  | kept size capacity => exact capacity.ge
  | added room size capacity => exact capacity.ge
  | doubled full allowed size capacity => omega

theorem capacity_eq (h : c.Moves c') {base : Nat} (hc : c.capacity = base * 2 ^ c.resizes) :
    c'.capacity = base * 2 ^ c'.resizes := by
  rcases h.resizes with ⟨hcap, hresizes⟩ | ⟨hcap, hresizes⟩
  · rw [hcap, hresizes, hc]
  · rw [hcap, hresizes, hc, pow_succ', Nat.mul_left_comm]

private theorem size (h : c.Moves c') (hc : c.Valid) (hc' : c'.Valid)
    (hshare : Shares c.loadFactor) {base : Nat} (hbase : base ≤ c.capacity)
    (hsize : c.size ≤ c.limit ∨ base * 2 ^ (c.size - 1) ≤ c.capacity) :
    c'.size ≤ c'.limit ∨ base * 2 ^ (c'.size - 1) ≤ c'.capacity := by
  have hlimit : 1 ≤ c.limit := (hc.limit_eq hshare).symm ▸ le_max_left _ _
  cases h.grows with
  | kept size capacity =>
      rw [h.limit_eq hc hc' capacity, capacity]
      refine hsize.imp size.trans (le_trans ?_)
      gcongr
      exact Nat.one_le_ofNat
  | added room size capacity =>
      left
      rw [h.limit_eq hc hc' capacity, size]
      exact room
  | doubled full allowed size capacity =>
      rcases hsize with hle | hspread
      · by_cases hroom : 1 ≤ c.capacity * share c.loadFactor
        · left
          rw [size]
          exact (Nat.succ_le_succ hle).trans (h.limit_lt hc hc' hshare capacity hroom)
        · -- the limit is 1, so this is the second slot
          have hone : c.limit = 1 :=
            hc.limited.trans (limitFor_eq_one hshare (by linarith))
          right
          rw [size, capacity, show c.size + 1 - 1 = 1 by omega]
          omega
      · right
        obtain ⟨k, hk⟩ : ∃ k, c.size = k + 1 := ⟨c.size - 1, by omega⟩
        rw [hk, Nat.add_sub_cancel] at hspread
        rw [size, hk, capacity, Nat.add_sub_cancel, pow_succ, ← mul_assoc, mul_comm]
        exact Nat.mul_le_mul_left 2 hspread

private theorem steady (h : c.Moves c') (hsteady : c.Steady) (hshare : Shares c.loadFactor) :
    c'.Steady := by
  have hcap : (c.capacity : ℚ) ≤ c'.capacity := by exact_mod_cast h.capacity_le
  rw [Steady, h.maxCapacity, h.loadFactor]
  refine hsteady.imp (fun hmax => ?_) fun hroom => ?_
  · have := h.capacity_le
    omega
  · exact hroom.trans (mul_le_mul_of_nonneg_right hcap hshare.1.le)

private theorem size_le_limit (h : c.Moves c') (hc : c.Valid) (hc' : c'.Valid)
    (hshare : Shares c.loadFactor) (hsteady : c.Steady) (hsize : c.size ≤ c.limit) :
    c'.size ≤ c'.limit := by
  cases h.grows with
  | kept size capacity =>
      rw [h.limit_eq hc hc' capacity]
      exact size.trans hsize
  | added room size capacity =>
      rw [h.limit_eq hc hc' capacity, size]
      exact room
  | doubled full allowed size capacity =>
      have hroom : 1 ≤ c.capacity * share c.loadFactor :=
        hsteady.resolve_left (not_lt.mpr allowed)
      rw [size]
      exact (Nat.succ_le_succ hsize).trans (h.limit_lt hc hc' hshare capacity hroom)

end Moves

namespace Valid

private theorem run_loaded (h : c.Valid) (hshare : Shares c.loadFactor) {base : Nat}
    (hbase : base ≤ c.capacity) (hsize : c.size ≤ c.limit ∨ base * 2 ^ (c.size - 1) ≤ c.capacity)
    {ops : List Op} (hrun : c.run ops = .ok c') : c'.Loaded base c.loadFactor := by
  obtain ⟨h', hfactor, -, hsize'⟩ :=
    h.run_induction (P := fun d => d.Valid ∧ d.loadFactor = c.loadFactor ∧ base ≤ d.capacity ∧
        (d.size ≤ d.limit ∨ base * 2 ^ (d.size - 1) ≤ d.capacity))
      (fun d d' hd hd' hmoves ⟨_, hs, hb, hsz⟩ =>
        ⟨hd', hmoves.loadFactor.trans hs, hb.trans hmoves.capacity_le,
          hmoves.size hd hd' (hs ▸ hshare) hb hsz⟩)
      ⟨h, rfl, hbase, hsize⟩ hrun
  refine ⟨?_, hsize'⟩
  rw [h'.limit_eq (hfactor ▸ hshare), hfactor]

private theorem run_size_le_limit (h : c.Valid) (hshare : Shares c.loadFactor) (hsteady : c.Steady)
    (hsize : c.size ≤ c.limit) {ops : List Op} (hrun : c.run ops = .ok c') :
    c'.size ≤ c'.limit := by
  obtain ⟨-, -, hsize'⟩ :=
    h.run_induction (P := fun d => Shares d.loadFactor ∧ d.Steady ∧ d.size ≤ d.limit)
      (fun d d' hd hd' hmoves ⟨hs, hst, hsz⟩ =>
        ⟨hmoves.loadFactor ▸ hs, hmoves.steady hst hs, hmoves.size_le_limit hd hd' hs hst hsz⟩)
      ⟨hshare, hsteady, hsize⟩ hrun
  exact hsize'

private theorem insert_granted (h : c.Valid) (hmax : 2 * c.capacity ≤ c.maxCapacity)
    (hash : UInt64) :
    ∃ c', c.apply (.insert hash .addressable) = .ok c' ∧ c'.Valid ∧ c.Moves c' ∧
      c'.size = c.size + 1 := by
  obtain ⟨s, c', hinsert⟩ := h.indexed.insert_addressable hash hmax
  have hop : c.apply (.insert hash .addressable) = .ok c' := by rw [apply, hinsert]; rfl
  obtain ⟨c'', hop', h'⟩ := h.apply_valid (.insert hash .addressable)
  obtain rfl := Except.ok.inj (hop.symm.trans hop')
  refine ⟨c', hop, h', h.apply_moves hop, ?_⟩
  rcases insert_cases h.sound h.limited h.capacity_le h.maxCapacity_le hash .addressable with
    ⟨capacity, hrefused, -, -⟩ | ⟨s', d, hadded, hadds, -⟩
  · simp [hrefused] at hinsert
  · obtain ⟨-, rfl⟩ := Prod.mk.inj (Except.ok.inj (hinsert.symm.trans hadded))
    exact hadds.size

private theorem run_over_limit (h : c.Valid) (hshare : Shares c.loadFactor) (hempty : c.size = 0)
    (hsteady : ¬ c.Steady) :
    ∃ c', c.run [.insert 0 .addressable, .insert 0 .addressable] = .ok c' ∧
      c'.limit < c'.size := by
  obtain ⟨hmax, hroom⟩ := not_or.mp hsteady
  rw [not_lt] at hmax
  rw [not_le] at hroom
  have hlimit : c.limit = 1 :=
    h.limited.trans (limitFor_eq_one hshare (by linarith))
  obtain ⟨c₁, hop₁, h₁, hmoves₁, hsize₁⟩ := h.insert_granted hmax 0
  have hcap₁ : c₁.capacity = c.capacity := by
    cases hmoves₁.grows with
    | kept size capacity => omega
    | added room size capacity => exact capacity
    | doubled full allowed size capacity => omega
  have hlimit₁ : c₁.limit = 1 := (hmoves₁.limit_eq h h₁ hcap₁).trans hlimit
  obtain ⟨c₂, hop₂, h₂, hmoves₂, hsize₂⟩ :=
    h₁.insert_granted (by rw [hcap₁, hmoves₁.maxCapacity]; exact hmax) 0
  have hcap₂ : c₂.capacity = 2 * c₁.capacity := by
    cases hmoves₂.grows with
    | kept size capacity => omega
    | added room size capacity => omega
    | doubled full allowed size capacity => exact capacity
  have hlimit₂ : c₂.limit = 1 := by
    rw [h₂.limited, hmoves₂.loadFactor, hmoves₁.loadFactor, hcap₂, hcap₁]
    refine limitFor_eq_one hshare ?_
    push_cast
    linarith
  refine ⟨c₂, by simp only [run, hop₁, hop₂, ok_bind], ?_⟩
  omega

end Valid

end Chains

private theorem Map.Config.shares_of_validate {config : Map.Config} (h : config.validate = .ok ()) :
    Chains.Shares config.loadFactor :=
  Chains.shares_iff.mpr (of_decide_eq_true (validate_eq_ok.mp h).1)

namespace Chains

/-- The live count of a new table stays within the limit in every run exactly if the table may not
grow or the load factor takes at least one of its first slots. In the other runs it is over the
limit by no more than the number of doublings. The tables of maps are those of such runs. -/
theorem limit_kept_iff {n maxCapacity : Nat} {loadFactor : UInt32} (hcap : 2 ^ n ≤ maxCapacity)
    (hmax : maxCapacity ≤ maxSlots) (hpos : 0 < share loadFactor) (hle : share loadFactor ≤ 1) :
    (∀ ops, ∃ c, (ofCapacity (2 ^ n) loadFactor maxCapacity).run ops = .ok c ∧
        c.Loaded (2 ^ n) loadFactor) ∧
      ((∀ c, (ofCapacity (2 ^ n) loadFactor maxCapacity).Reaches c → c.size ≤ c.limit) ↔
        maxCapacity < 2 * 2 ^ n ∨ 1 ≤ 2 ^ n * share loadFactor) ∧
      ∀ {κ ν : Type} [DecidableEq κ] {config : Map.Config}, config.validate = .ok () →
        config.initialSlots = 2 ^ n → config.maxCapacity = maxCapacity →
        config.loadFactor = loadFactor → ∀ (hasher : κ → UInt64) (ops : List (Map.Op κ ν)),
          ∃ m₀ replies m, Map.ofConfig config hasher = .ok m₀ ∧ m₀.run ops = .ok (replies, m) ∧
            (ofCapacity (2 ^ n) loadFactor maxCapacity).Reaches m.chains := by
  have hnew := ofCapacity_valid (Nat.two_pow_pos n) hcap hmax loadFactor
  have hcapacity : (ofCapacity (2 ^ n) loadFactor maxCapacity).capacity = 2 ^ n := by
    simp [ofCapacity, Chains.capacity]
  have hsteady : (ofCapacity (2 ^ n) loadFactor maxCapacity).Steady ↔
      maxCapacity < 2 * 2 ^ n ∨ 1 ≤ 2 ^ n * share loadFactor := by
    rw [Steady, hcapacity]
    push_cast
    rfl
  refine ⟨fun ops => ?_, ⟨fun hkept => ?_, fun hsteady' => ?_⟩, ?_⟩
  · obtain ⟨c, hrun, -⟩ := hnew.run_valid ops
    exact ⟨c, hrun, hnew.run_loaded ⟨hpos, hle⟩ hcapacity.ge (.inl (Nat.zero_le _)) hrun⟩
  · by_contra hnot
    obtain ⟨c, hrun, hover⟩ := hnew.run_over_limit ⟨hpos, hle⟩ rfl (mt hsteady.mp hnot)
    exact not_le.mpr hover (hkept c ⟨_, hrun⟩)
  · rintro c ⟨ops, hrun⟩
    exact hnew.run_size_le_limit ⟨hpos, hle⟩ (hsteady.mpr hsteady') (Nat.zero_le _) hrun
  · rintro κ ν _ config hvalid hslots rfl rfl hasher ops
    rw [← hslots]
    exact Map.ofConfig_run hvalid hasher ops

/-- At three quarters, a table of one slot goes over its limit. -/
theorem limit_kept_iff_default :
    2 ^ 0 ≤ 1024 ∧ 1024 ≤ maxSlots ∧ 0 < share 0x3f400000 ∧ share 0x3f400000 ≤ 1 ∧
      (∃ c, (ofCapacity (2 ^ 0) 0x3f400000 1024).Reaches c ∧ c.limit < c.size) ∧
      ∀ (hasher : String → UInt64) (ops : List (Map.Op String String)), ∃ m₀ replies m,
        Map.ofConfig { initialCapacity := 1, maxCapacity := 1024 } hasher = .ok m₀ ∧
          m₀.run ops = .ok (replies, m) ∧
          (ofCapacity (2 ^ 0) 0x3f400000 1024).Reaches m.chains := by
  have hshare : Shares 0x3f400000 :=
    Map.Config.shares_of_validate (show Map.Config.validate {} = .ok () by decide)
  have hless : share 0x3f400000 < 1 := by
    rw [share, Binary.Format.value_eq (by decide), div_lt_one (by positivity)]
    exact_mod_cast (by decide +kernel :
      Binary.binary32.units 0x3f400000 < (Nat.pow 2 Binary.binary32.unitPlaces : Nat))
  obtain ⟨-, hkept, hmaps⟩ :=
    limit_kept_iff (show 2 ^ 0 ≤ 1024 by decide) (by decide) hshare.1 hshare.2
  refine ⟨by decide, by decide, hshare.1, hshare.2, ?_, hmaps (by decide) rfl rfl rfl⟩
  by_contra hnone
  push Not at hnone
  rcases hkept.mp hnone with hmax | hroom
  · exact absurd hmax (by decide)
  · norm_num at hroom
    exact absurd hless (not_lt.mpr hroom)

/-- One doubling is not enough here: two slots are live, and the limit is still 1. -/
example :
    (do let c ← (ofCapacity 1 0x3f400000 1024).run [.insert 1 .addressable, .insert 2 .addressable]
        return (c.capacity, c.limit, c.size)) = Except.ok (ε := Fault) (2, 1, 2) := rfl

end Chains
end TableIndex
