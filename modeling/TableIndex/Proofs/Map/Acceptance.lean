import TableIndex.Proofs.Map.Verification
import TableIndex.Proofs.Slot.Trail

/-!
# Accepted chains

The check of a table keeps one count over all buckets and no list of what it has met. That is
enough: a chain that ends comes to no slot twice, a slot that two chains share is in the wrong
bucket in one of them, and a chain that does not end exceeds the live count. So as many slots as are
live have been met exactly if each of them was met once.
-/

namespace TableIndex.Chains

variable {c : Chains}

/-- The loop over one chain with its count `seen`. A slot outside the arena cannot be read. -/
def auditChain (c : Chains) (bucket : Nat) : Nat → Nat → Link → Checked (Except Damage Nat)
  | _, seen, none => .ok (.ok seen)
  | 0, _, some _ => .error .endless
  | fuel + 1, seen, some s => do
      if !c.contains (some s) then return .error (.bucketToFreeSlot bucket s)
      let hash ← c.hashAt (some s)
      if Hash.bucket hash c.mask ≠ bucket then return .error (.wrongBucket s bucket)
      if c.size < seen + 1 then return .error .chainCycle
      auditChain c bucket fuel (seen + 1) (← c.next (some s))

/-- The loop over the buckets; no chain gets more steps than it takes to exceed the live count. -/
def auditBuckets (c : Chains) : Nat → Nat → List Link → Checked (Except Damage Nat)
  | _, seen, [] => .ok (.ok seen)
  | bucket, seen, head :: rest => do
      match ← c.auditChain bucket (c.size + 1) seen head with
      | .error damage => return .error damage
      | .ok seen => auditBuckets c (bucket + 1) seen rest

def audit (c : Chains) : Checked (Except Error Unit) := do
  match ← c.auditBuckets 0 0 c.buckets.toList with
  | .error damage => return .error (.damaged damage)
  | .ok seen =>
      if seen ≠ c.size then return .error (.damaged (.unreachableSlots c.size seen))
      return .ok ()

private theorem verifyChain_cases {bucket budget left : Nat} {l : Link}
    (h : c.verifyChain bucket budget l = .ok left) :
    ∃ slots, c.Segment l slots none ∧ slots.length + left = budget ∧
      ∀ s ∈ slots, ∃ hash, c.hash? s = some hash ∧ Hash.bucket hash c.mask = bucket := by
  induction budget generalizing l with
  | zero =>
      cases l with
      | none =>
          rw [verifyChain] at h
          cases h
          exact ⟨[], rfl, rfl, by simp⟩
      | some s =>
          unfold verifyChain at h
          split at h
          · cases h
          · split at h
            · cases h
            · cases h
  | succ budget ih =>
      cases l with
      | none =>
          rw [verifyChain] at h
          cases h
          exact ⟨[], rfl, by simp, by simp⟩
      | some s =>
          unfold verifyChain at h
          split at h
          · cases h
          · next link hs =>
            split at h
            · cases h
            · next hbucket =>
              obtain ⟨slots, hseg, hlength, hplaced⟩ := ih h
              refine ⟨s :: slots, ⟨rfl, link, hs, hseg⟩, by rw [List.length_cons]; omega, ?_⟩
              refine List.forall_mem_cons.mpr ⟨⟨link.hash, ?_, not_not.mp hbucket⟩, hplaced⟩
              exact hash?_eq_some.mpr ⟨link, hs, rfl⟩

private theorem verifyBuckets_cases {bucket budget left : Nat} {heads : List Link}
    (h : c.verifyBuckets bucket budget heads = .ok left) :
    ∃ chains, List.Forall₂ (fun l slots => c.Segment l slots none) heads chains ∧
      chains.flatten.length + left = budget ∧
      ∀ i slots, chains[i]? = some slots → ∀ s ∈ slots,
        ∃ hash, c.hash? s = some hash ∧ Hash.bucket hash c.mask = bucket + i := by
  induction heads generalizing bucket budget with
  | nil =>
      cases h
      exact ⟨[], .nil, by simp, by simp⟩
  | cons head heads ih =>
      rw [verifyBuckets, bind_eq_ok] at h
      obtain ⟨rest, hchain, h⟩ := h
      obtain ⟨slots, hseg, hlength, hplaced⟩ := verifyChain_cases hchain
      obtain ⟨chains, hsegs, hlengths, hrest⟩ := ih h
      refine ⟨slots :: chains, .cons hseg hsegs, ?_, fun i others hi => ?_⟩
      · rw [List.flatten_cons, List.length_append]
        omega
      · cases i with
        | zero =>
            cases hi
            exact hplaced
        | succ i =>
            intro s hs
            obtain ⟨hash, hhash, hbucket⟩ := hrest i others hi s hs
            exact ⟨hash, hhash, by omega⟩

private theorem auditChain_live (bucket fuel seen : Nat) {s : Slot} {link : ChainCell}
    (hs : c.links.get? (some s) = some link) :
    c.auditChain bucket (fuel + 1) seen (some s) =
      if Hash.bucket link.hash c.mask ≠ bucket then .ok (.error (.wrongBucket s bucket))
      else if c.size < seen + 1 then .ok (.error .chainCycle)
      else c.auditChain bucket fuel (seen + 1) link.next := by
  have hlive : c.contains (some s) = true := Arena.contains_of_get? hs
  have hhash : c.hashAt (some s) = .ok link.hash :=
    hashAt_of_hash? (hash?_eq_some.mpr ⟨link, hs, rfl⟩)
  have hnext : c.next (some s) = .ok link.next := by simp [next, Arena.fetch_of_get? hs]
  simp only [auditChain, hlive, hhash, hnext, ok_bind, pure_eq_ok, Bool.not_true,
    Bool.false_eq_true, if_false]

private theorem auditChain_eq (bucket : Nat) {fuel seen : Nat} (l : Link) (hseen : seen ≤ c.size)
    (hfuel : c.size < fuel + seen) :
    c.auditChain bucket fuel seen l =
      .ok ((c.verifyChain bucket (c.size - seen) l).map fun left => c.size - left) := by
  induction fuel generalizing seen l with
  | zero => omega
  | succ fuel ih =>
      cases l with
      | none => rw [auditChain, verifyChain, Except.map, Nat.sub_sub_self hseen]
      | some s =>
          unfold verifyChain
          cases hs : c.links.get? (some s) with
          | none =>
              simp only [auditChain, contains, Arena.contains, hs]
              rfl
          | some link =>
              rw [auditChain_live bucket fuel seen hs]
              by_cases hbucket : Hash.bucket link.hash c.mask = bucket
              · simp only [ne_eq, hbucket, not_true_eq_false, if_false]
                rcases Nat.lt_or_ge seen c.size with hlt | hfull
                · obtain ⟨budget, hbudget⟩ : ∃ n, c.size - seen = n + 1 :=
                    ⟨c.size - seen - 1, by omega⟩
                  have hrest := ih link.next (show seen + 1 ≤ c.size by omega) (by omega)
                  rw [show c.size - (seen + 1) = budget by omega] at hrest
                  rw [if_neg (by omega), hrest, hbudget]
                · rw [if_pos (by omega), show c.size - seen = 0 by omega]
                  rfl
              · simp only [ne_eq, hbucket, not_false_eq_true, if_true]
                rfl

private theorem auditBuckets_eq (bucket : Nat) {seen : Nat} (heads : List Link)
    (hseen : seen ≤ c.size) :
    c.auditBuckets bucket seen heads =
      .ok ((c.verifyBuckets bucket (c.size - seen) heads).map fun left => c.size - left) := by
  induction heads generalizing bucket seen with
  | nil => rw [auditBuckets, verifyBuckets, Except.map, Nat.sub_sub_self hseen]
  | cons head heads ih =>
      rw [auditBuckets, auditChain_eq bucket head hseen (by omega), ok_bind, verifyBuckets]
      cases hchain : c.verifyChain bucket (c.size - seen) head with
      | error damage => rfl
      | ok left =>
          obtain ⟨slots, -, hlength, -⟩ := verifyChain_cases hchain
          have hleft : c.size - (c.size - left) = left := by omega
          have hrest := ih (bucket + 1) (Nat.sub_le c.size left)
          rw [hleft] at hrest
          exact hrest

private theorem audit_eq (c : Chains) : c.audit = .ok c.verify := by
  rw [audit, auditBuckets_eq 0 _ (Nat.zero_le _), ok_bind, Nat.sub_zero, verify]
  cases hrun : c.verifyBuckets 0 c.size c.buckets.toList with
  | error damage => rfl
  | ok left =>
      obtain ⟨chains, -, hlength, -⟩ := verifyBuckets_cases hrun
      cases left with
      | zero => simp [Except.map]
      | succ left =>
          have hne : c.size - (left + 1) ≠ c.size := by omega
          simp [Except.map, hne]

/-- The slot links to this one. -/
def LinksTo (c : Chains) (s : Slot) (l : Link) : Prop :=
  ∃ cell, c.links.get? (some s) = some cell ∧ cell.next = l

private theorem linksTo_unique (c : Chains) (s : Slot) (l l' : Link) (h : c.LinksTo s l)
    (h' : c.LinksTo s l') : l = l' := by
  obtain ⟨cell, hcell, rfl⟩ := h
  obtain ⟨cell', hcell', rfl⟩ := h'
  rw [Option.some.inj (hcell.symm.trans hcell')]

private theorem Segment.trail {l : Link} {slots : List Slot} (h : c.Segment l slots none) :
    Trail c.LinksTo l slots := by
  induction slots generalizing l with
  | nil => exact h
  | cons s slots ih =>
      obtain ⟨hl, cell, hs, hrest⟩ := h
      exact ⟨hl, cell.next, ⟨cell, hs, rfl⟩, ih hrest⟩

private theorem Segment.nodup {l : Link} {slots : List Slot} (h : c.Segment l slots none) :
    slots.Nodup :=
  h.trail.nodup c.linksTo_unique

private theorem mapM_of_segments {heads : List Link} {chains : List (List Slot)}
    (hsegs : List.Forall₂ (fun l slots => c.Segment l slots none) heads chains)
    (hlength : chains.flatten.length ≤ c.links.capacity) :
    heads.mapM c.chainFrom = .ok chains := by
  induction hsegs with
  | nil => rfl
  | @cons l slots heads chains hseg _ ih =>
      rw [List.flatten_cons, List.length_append] at hlength
      have hwalk : c.chainFrom l = .ok slots := walk_segment hseg (by omega)
      rw [List.mapM_cons, hwalk, ok_bind, ih (by omega), ok_bind, pure_eq_ok]

private theorem nodup_of_placed {heads : List Link} {chains : List (List Slot)} {bucket : Nat}
    (hsegs : List.Forall₂ (fun l slots => c.Segment l slots none) heads chains)
    (hplaced : ∀ i slots, chains[i]? = some slots → ∀ s ∈ slots,
      ∃ hash, c.hash? s = some hash ∧ Hash.bucket hash c.mask = bucket + i) :
    chains.flatten.Nodup := by
  refine List.nodup_flatten.mpr ⟨fun slots hslots => ?_, ?_⟩
  · obtain ⟨i, hi, rfl⟩ := List.getElem_of_mem hslots
    have hseg := (List.forall₂_iff_get.mp hsegs).2 i (by rw [hsegs.length_eq]; exact hi) hi
    exact hseg.nodup
  · refine List.pairwise_iff_getElem.mpr fun i j hi hj hlt s hs hs' => ?_
    obtain ⟨hash, hlive, hbucket⟩ := hplaced i _ (List.getElem?_eq_getElem hi) s hs
    obtain ⟨hash', hlive', hbucket'⟩ := hplaced j _ (List.getElem?_eq_getElem hj) s hs'
    obtain rfl : hash = hash' := Option.some.inj (hlive.symm.trans hlive')
    omega

private theorem covers_of_verify (hcounted : c.links.Counted) (h : c.verify = .ok ()) :
    ∃ chains, c.Covers chains := by
  have hrun : c.verifyBuckets 0 c.size c.buckets.toList = .ok 0 := by
    unfold verify at h
    split at h
    · cases h
    · assumption
    · cases h
  obtain ⟨chains, hsegs, hlength, hplaced⟩ := verifyBuckets_cases hrun
  have hnodup := nodup_of_placed hsegs hplaced
  have hsound := Arena.tidy_sound hcounted
  have hlive : ∀ s ∈ chains.flatten, c.contains (some s) = true := by
    intro s hs
    obtain ⟨slots, hslots, hs⟩ := List.mem_flatten.mp hs
    obtain ⟨i, hi⟩ := List.mem_iff_getElem?.mp hslots
    obtain ⟨hash, hhash, -⟩ := hplaced i slots hi s hs
    exact contains_iff_hash?.mpr ⟨hash, hhash⟩
  -- as many slots as are live, none of them twice, are all of them
  refine ⟨chains, ⟨?_, hnodup, fun s => ⟨hlive s, fun hs => ?_⟩, ?_⟩⟩
  · have hcapacity : c.links.tidy.size ≤ c.links.tidy.capacity := Arena.size_le_capacity hsound
    exact mapM_of_segments hsegs (hlength.le.trans hcapacity)
  · exact Arena.mem_of_length_eq hsound hnodup hlive hlength hs
  · intro i slots hi s hs
    obtain ⟨hash, hhash, hbucket⟩ := hplaced i slots hi s hs
    exact ⟨hash, hashAt_of_hash? hhash, by rw [hbucket, Nat.zero_add]⟩

/-- Whatever the links and hashes are, the check ends and reads nothing outside the arena. If the
live count is right, it accepts the table exactly if the chains, followed from all bucket heads,
hold every live slot once, each in the bucket of its hash, and no free slot. -/
theorem verify_ok_iff_covers (hcounted : c.links.Counted) :
    c.audit = .ok c.verify ∧ (c.verify = .ok () ↔ ∃ chains, c.Covers chains) :=
  ⟨audit_eq c, covers_of_verify hcounted, fun ⟨_, h⟩ => h.verify_eq hcounted⟩

/-- The only chain comes back to its first slot, and so it leaves out the other one. -/
private def closedChain : Chains where
  buckets := #[some 0, none]
  links :=
    { cells := #[⟨⟨some 0, 0⟩, true⟩, ⟨⟨none, 0⟩, true⟩]
      freed := [], frontier := 2, size := 2, guarded := false }
  loadFactor := 0
  limit := 2
  maxCapacity := 2
  resizes := 0

/-- Two chains hold the three live slots; the free slot links into the first of them. -/
private def openChains : Chains where
  buckets := #[some 0, some 1]
  links :=
    { cells := #[⟨⟨some 2, 0⟩, true⟩, ⟨⟨none, 1⟩, true⟩, ⟨⟨none, 2⟩, true⟩, ⟨⟨some 0, 0⟩, false⟩]
      freed := [3], frontier := 4, size := 3, guarded := false }
  loadFactor := 0
  limit := 4
  maxCapacity := 4
  resizes := 0

/-- A slot that is met once for each live slot and then once too often is a cycle, so a live slot is
left out. What a free slot links to does not matter. -/
theorem verify_ok_iff_covers_cycle :
    (closedChain.verify = .error (.damaged .chainCycle) ∧
      ¬ ∃ chains, closedChain.Covers chains) ∧
    openChains.audit = .ok (.ok ()) ∧ ∃ chains, openChains.Covers chains := by
  have hrefused : closedChain.verify = .error (.damaged .chainCycle) := by decide
  have haccepted : openChains.verify = .ok () := by decide
  obtain ⟨-, hclosed⟩ := verify_ok_iff_covers (c := closedChain) rfl
  obtain ⟨haudit, hopen⟩ := verify_ok_iff_covers (c := openChains) rfl
  refine ⟨⟨hrefused, fun hcovers => ?_⟩, haccepted ▸ haudit, hopen.mp haccepted⟩
  cases hrefused.symm.trans (hclosed.mpr hcovers)

end TableIndex.Chains
