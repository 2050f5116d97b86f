import TableIndex.Proofs.Map.Soundness

/-!
# Accepted maps

A check finds no damage in chains that hold every live slot once, and none in a map whose live slots
hold the keys that their hashes stand for.
-/

namespace TableIndex

namespace Chains

variable {c : Chains}

private theorem verifyChain_segment {b : Nat} {l : Link} {slots : List Slot}
    (hseg : c.Segment l slots none)
    (hplaced : ∀ s ∈ slots, ∃ hash, c.hash? s = some hash ∧ Hash.bucket hash c.mask = b)
    {budget : Nat} (hbudget : slots.length ≤ budget) :
    c.verifyChain b budget l = .ok (budget - slots.length) := by
  induction slots generalizing l budget with
  | nil =>
      obtain rfl : l = none := hseg
      rw [verifyChain, List.length_nil, Nat.sub_zero]
  | cons s slots ih =>
      obtain ⟨budget, rfl⟩ : ∃ n, budget = n + 1 := ⟨budget - 1, by simp at hbudget; omega⟩
      obtain ⟨rfl, cell, hs, hrest⟩ := hseg
      obtain ⟨hash, hhash, hbucket⟩ := hplaced s (by simp)
      obtain ⟨_, hs', rfl⟩ := hash?_eq_some.mp hhash
      cases hs'.symm.trans hs
      have hchain := ih hrest (fun u hu => hplaced u (by simp [hu]))
        (show slots.length ≤ budget by simpa using hbudget)
      simp only [verifyChain, hs, hbucket, ne_eq, not_true_eq_false, if_false, hchain]
      simp

private theorem verifyBuckets_segments {heads : List Link} {chains : List (List Slot)}
    (hsegs : List.Forall₂ (fun l slots => c.Segment l slots none) heads chains) {bucket : Nat}
    (hplaced : ∀ i slots, chains[i]? = some slots → ∀ s ∈ slots,
      ∃ hash, c.hash? s = some hash ∧ Hash.bucket hash c.mask = bucket + i)
    {budget : Nat} (hbudget : chains.flatten.length ≤ budget) :
    c.verifyBuckets bucket budget heads = .ok (budget - chains.flatten.length) := by
  induction hsegs generalizing bucket budget with
  | nil => rfl
  | @cons l slots heads chains hseg _ ih =>
      rw [List.flatten_cons, List.length_append] at hbudget ⊢
      have hchain := verifyChain_segment hseg (hplaced 0 slots rfl)
        (show slots.length ≤ budget by omega)
      have hplaced' : ∀ i others, chains[i]? = some others → ∀ s ∈ others,
          ∃ hash, c.hash? s = some hash ∧ Hash.bucket hash c.mask = bucket + 1 + i := by
        intro i others hi
        rw [Nat.add_assoc, Nat.add_comm 1 i]
        exact hplaced (i + 1) others hi
      have hrest := ih hplaced' (Nat.le_sub_of_add_le' hbudget)
      simp only [verifyBuckets, Nat.add_zero] at hchain ⊢
      rw [hchain, ok_bind, hrest, Nat.sub_sub]

private theorem segment_of_walk {fuel : Nat} {l : Link} {slots : List Slot}
    (h : c.walk fuel l = .ok slots) (hlive : ∀ s ∈ slots, c.contains (some s) = true) :
    c.Segment l slots none := by
  induction fuel generalizing l slots with
  | zero =>
      cases l with
      | none =>
          cases h
          rfl
      | some s => cases h
  | succ fuel ih =>
      cases l with
      | none =>
          cases h
          rfl
      | some s =>
          rw [walk, bind_eq_ok] at h
          obtain ⟨l, hnext, h⟩ := h
          obtain ⟨rest, hrest, h⟩ := bind_eq_ok.mp h
          cases h
          obtain ⟨cell, hcell⟩ := (Arena.contains_iff c.links s).mp (hlive s (by simp))
          rw [next, Arena.fetch_of_get? hcell] at hnext
          cases hnext
          exact ⟨rfl, cell, hcell, ih hrest fun u hu => hlive u (by simp [hu])⟩

private theorem segments_of_mapM {heads : List Link} {chains : List (List Slot)}
    (h : heads.mapM c.chainFrom = .ok chains)
    (hlive : ∀ s ∈ chains.flatten, c.contains (some s) = true) :
    List.Forall₂ (fun l slots => c.Segment l slots none) heads chains := by
  induction heads generalizing chains with
  | nil =>
      cases h
      exact .nil
  | cons l heads ih =>
      rw [List.mapM_cons, bind_eq_ok] at h
      obtain ⟨slots, hwalk, h⟩ := h
      obtain ⟨rest, hrest, h⟩ := bind_eq_ok.mp h
      cases h
      rw [List.flatten_cons, List.forall_mem_append] at hlive
      exact .cons (segment_of_walk hwalk hlive.1) (ih hrest hlive.2)

theorem Covers.verify_eq {chains : List (List Slot)} (h : c.Covers chains)
    (hcounted : c.links.Counted) : c.verify = .ok () := by
  have hsegs := segments_of_mapM h.walked fun s => (h.live s).mp
  have hlength : chains.flatten.length = c.size :=
    Arena.length_eq_size (Arena.tidy_sound hcounted) h.nodup fun s => (h.live s).symm
  have hplaced : ∀ i slots, chains[i]? = some slots → ∀ s ∈ slots,
      ∃ hash, c.hash? s = some hash ∧ Hash.bucket hash c.mask = 0 + i := by
    intro i slots hi s hs
    have hlive := (h.live s).mp (List.mem_flatten.mpr ⟨slots, List.mem_of_getElem? hi, hs⟩)
    obtain ⟨hash, hhash⟩ := contains_iff_hash?.mp hlive
    obtain ⟨hash', hrun, hbucket⟩ := h.placed i slots hi s hs
    obtain rfl : hash = hash' := Except.ok.inj ((hashAt_of_hash? hhash).symm.trans hrun)
    exact ⟨hash, hhash, by rw [hbucket, Nat.zero_add]⟩
  have hrun := verifyBuckets_segments hsegs hplaced hlength.le
  rw [hlength, Nat.sub_self] at hrun
  simp only [verify, hrun]

private theorem verify_eq (h : c.Sound) : c.verify = .ok () := by
  obtain ⟨chains, hcovers, -⟩ := covers h
  exact hcovers.verify_eq h.links.counted

end Chains

namespace Map

variable {κ ν : Type} {m : Map κ ν}

private theorem verifyKeys_eq (h : m.Sound) {slots : List Slot}
    (hlive : ∀ s ∈ slots, s ∈ m.chains.inUse) :
    m.verifyKeys slots = .ok (.ok ()) := by
  induction slots with
  | nil => rfl
  | cons s slots ih =>
      obtain ⟨hash, hs⟩ := h.mem_inUse.mp (hlive s (by simp))
      obtain ⟨key, hkey, -, hhash⟩ := h.hashed s hash hs
      have hread : m.entries.keyAt (some s) = .ok (some key) := by
        rw [Entries.keyAt_eq h.room (h.lt_capacity hs), hkey]
      have hrest := ih fun u hu => hlive u (by simp [hu])
      simp only [verifyKeys, hread, Chains.hashAt_of_hash? hs, hhash, ok_bind, pure_eq_ok, ne_eq,
        not_true_eq_false, if_false, hrest]

theorem verify_eq (h : m.Sound) : m.verify = .ok (.ok ()) := by
  simp only [verify, Chains.verify_eq h.chains]
  exact verifyKeys_eq h fun _ => id

end Map
end TableIndex
