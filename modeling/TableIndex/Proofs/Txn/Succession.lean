import TableIndex.Proofs.Txn.Registry
import TableIndex.Txn.Versions

/-!
# Versions that no one sees together

A version may take the place of another one that is deleted: whoever sees the new one then sees the
deletion as well. That holds from the moment on at which the creator of the new version sees the
deletion, however its own transaction ends, because a commit is later than all that it has seen.
-/

namespace TableIndex

namespace Registry

/-- The transaction has been issued. -/
def Issued (r : Registry) (txn : Int) : Prop := ∃ s, r.state? txn = some s

theorem issued_iff {r : Registry} (hr : r.Sound) {txn : Int} :
    r.Issued txn ↔ 0 < txn ∧ txn ≤ r.lastTxn := state?_isSome_iff hr

theorem Issued.ne_bootstrap {r : Registry} (hr : r.Sound) {txn : Int} (h : r.Issued txn) :
    txn ≠ bootstrap := by
  have := ((issued_iff hr).mp h).1
  rw [bootstrap]
  omega

private theorem isCommitted_of_state? {r : Registry} {txn s : Int}
    (h : r.state? txn = some (.committed s)) : r.isCommitted txn = true := by
  simp [isCommitted, committedAt?_of_state? h]

theorem isCommitted_iff {r : Registry} (hr : r.Sound) {txn : Int} (h : r.Issued txn) :
    r.isCommitted txn = true ↔ ∃ s, r.state? txn = some (.committed s) := by
  simp [isCommitted, Option.isSome_iff_exists, committedAt?_eq hr, h.ne_bootstrap hr]

theorem Advances.issued {r r' : Registry} (h : r.Advances r') {txn : Int} (ht : r.Issued txn) :
    r'.Issued txn := by
  obtain ⟨s, hs⟩ := ht
  cases s with
  | active n =>
      rcases h.active hs with h | h | ⟨m, -, h⟩
      · exact ⟨_, h⟩
      · exact ⟨_, h⟩
      · exact ⟨_, h⟩
  | committed n => exact ⟨_, h.committed hs⟩
  | aborted => exact ⟨_, h.aborted hs⟩

/-- A transaction that is neither active nor committed has aborted. -/
theorem Issued.aborted {r : Registry} {txn : Int} (h : r.Issued txn)
    (ha : r.isActive txn = false) (hc : r.isCommitted txn = false) :
    r.state? txn = some .aborted := by
  obtain ⟨s, hs⟩ := h
  cases s with
  | active n =>
      rw [isActive_iff.mpr ⟨n, hs⟩] at ha
      cases ha
  | committed n =>
      rw [isCommitted_of_state? hs] at hc
      cases hc
  | aborted => exact hs

theorem viewer_eq {r : Registry} {txn session : Int} {v : Viewer}
    (h : r.viewer txn session = .ok v) :
    r.state? txn = some (.active v.snapshot) ∧ v.txn = txn ∧ v.isolation = r.level txn := by
  unfold viewer at h
  split at h
  · rename_i n hn
    simp only [Except.ok.injEq] at h
    subst h
    exact ⟨begunAt?_eq.mp hn, rfl, rfl⟩
  · cases h

/-- Whoever sees what the transaction writes sees what was committed at `s`: the transaction has
committed later, or it is active and sees the commit itself. -/
def Follows (r : Registry) (txn s : Int) : Prop :=
  (∃ n, r.state? txn = some (.committed n) ∧ s < n) ∨
    ∃ n, r.state? txn = some (.active n) ∧ (r.level txn = .readCommitted ∨ s ≤ n)

/-- The levels of transactions that stay active are the same in `r'`. -/
def LevelsKept (r r' : Registry) : Prop :=
  ∀ txn, r.isActive txn = true → r'.isActive txn = true → r'.level txn = r.level txn

private theorem Follows.advances {r r' : Registry} {txn s : Int} (h : r.Follows txn s)
    (hr : r.Advances r') (hlevels : r.LevelsKept r') (hs : s ≤ r.sequence) :
    r'.state? txn = some .aborted ∨ r'.Follows txn s := by
  rcases h with ⟨n, hn, hlt⟩ | ⟨n, hn, hsees⟩
  · exact .inr (.inl ⟨n, hr.committed hn, hlt⟩)
  · rcases hr.active hn with hn' | hn' | ⟨m, hm, hn'⟩
    · right
      right
      rw [← hlevels txn (isActive_iff.mpr ⟨n, hn⟩) (isActive_iff.mpr ⟨n, hn'⟩)] at hsees
      exact ⟨n, hn', hsees⟩
    · exact .inl hn'
    · exact .inr (.inl ⟨m, hn', hs.trans_lt hm⟩)

private theorem sees_of_follows {r : Registry} (hr : r.Sound) {reader session txn d s : Int}
    {v : Viewer} (hv : r.viewer reader session = .ok v) (hd : r.state? d = some (.committed s))
    (hf : r.Follows txn s) (hsees : r.sees v txn = true) : r.sees v d = true := by
  obtain ⟨hactive, htxn, hlevel⟩ := viewer_eq hv
  have hcommitted : r.committedAt? d = some s := committedAt?_of_state? hd
  unfold sees at hsees ⊢
  rw [Bool.or_eq_true] at hsees ⊢
  right
  cases hi : v.isolation with
  | readCommitted => exact isCommitted_of_state? hd
  | snapshot =>
      suffices hle : s ≤ v.snapshot by simp [committedBy, hcommitted, hle]
      rw [hi] at hsees hlevel
      rcases hsees with hsame | hseen
      · obtain rfl : txn = reader := (of_decide_eq_true hsame).trans htxn
        rcases hf with ⟨n, hn, -⟩ | ⟨n, hn, hrc | hle⟩
        · rw [hactive] at hn
          cases hn
        · rw [hrc] at hlevel
          cases hlevel
        · rw [hactive] at hn
          cases hn
          exact hle
      · have hissued : r.Issued txn := by
          rcases hf with ⟨n, hn, -⟩ | ⟨n, hn, -⟩
          · exact ⟨_, hn⟩
          · exact ⟨_, hn⟩
        simp only [committedBy, hissued.ne_bootstrap hr, decide_false, Bool.false_or,
          Option.any_eq_true, committedAt?_eq hr, decide_eq_true_eq] at hseen
        obtain ⟨m, hm, hle⟩ := hseen
        rcases hf with ⟨n, hn, hlt⟩ | ⟨n, hn, -⟩
        · rw [hm] at hn
          cases hn
          omega
        · rw [hm] at hn
          cases hn

theorem not_sees_aborted {r : Registry} {reader session txn : Int} {v : Viewer}
    (hv : r.viewer reader session = .ok v) (h : r.state? txn = some .aborted) :
    r.sees v txn = false := by
  obtain ⟨hactive, htxn, -⟩ := viewer_eq hv
  have hne : txn ≠ v.txn := by
    rintro rfl
    rw [htxn, hactive] at h
    cases h
  obtain ⟨⟨hpos, -⟩, -, hnone⟩ := state?_aborted_iff.mp h
  have hboot : txn ≠ bootstrap := by
    rw [bootstrap]
    omega
  cases hi : v.isolation <;> simp [sees, hne, hi, isCommitted, committedBy, hboot, hnone]

end Registry

namespace Versions

/-- Whoever sees `w` sees the deletion of `v`. -/
def Supersedes (r : Registry) (w v : Version) : Prop :=
  ∃ d, v.deletedBy = some d ∧
    (d = w.createdBy ∨ ∃ s, r.state? d = some (.committed s) ∧ r.Follows w.createdBy s)

/-- No one sees both versions. -/
def Apart (r : Registry) (v w : Version) : Prop :=
  r.state? v.createdBy = some .aborted ∨ r.state? w.createdBy = some .aborted ∨
    Supersedes r v w ∨ Supersedes r w v

theorem Apart.symm {r : Registry} {v w : Version} (h : Apart r v w) : Apart r w v := by
  rcases h with h | h | h | h
  · exact .inr (.inl h)
  · exact .inl h
  · exact .inr (.inr (.inr h))
  · exact .inr (.inr (.inl h))

private theorem Supersedes.not_visible {r : Registry} (hr : r.Sound) {reader session : Int}
    {viewer : Viewer} (hv : r.viewer reader session = .ok viewer) {v w : Version}
    (h : Supersedes r w v) (hw : versionVisible r viewer w = true) :
    versionVisible r viewer v = false := by
  obtain ⟨d, hd, hsees⟩ := h
  have hcreated : r.sees viewer w.createdBy = true := (Bool.and_eq_true_iff.mp hw).1
  have hdeleted : r.sees viewer d = true := by
    rcases hsees with rfl | ⟨s, hs, hf⟩
    · exact hcreated
    · exact Registry.sees_of_follows hr hv hs hf hcreated
  simp [versionVisible, deletionSeen, hd, hdeleted]

theorem Apart.not_both {r : Registry} (hr : r.Sound) {reader session : Int} {viewer : Viewer}
    (hv : r.viewer reader session = .ok viewer) {v w : Version} (h : Apart r v w)
    (hvisible : versionVisible r viewer v = true) : versionVisible r viewer w = false := by
  rcases h with h | h | h | h
  · simp [versionVisible, Registry.not_sees_aborted hv h] at hvisible
  · simp [versionVisible, Registry.not_sees_aborted hv h]
  · exact h.not_visible hr hv hvisible
  · by_contra hw
    rw [h.not_visible hr hv (by simpa using hw)] at hvisible
    cases hvisible

private theorem Supersedes.advances {r r' : Registry} {v w : Version} (h : Supersedes r w v)
    (hr : r.Advances r') (hlevels : r.LevelsKept r')
    (hpast : ∀ t s, r.state? t = some (.committed s) → s ≤ r.sequence) :
    r'.state? w.createdBy = some .aborted ∨ Supersedes r' w v := by
  obtain ⟨d, hd, rfl | ⟨s, hs, hf⟩⟩ := h
  · exact .inr ⟨_, hd, .inl rfl⟩
  · rcases hf.advances hr hlevels (hpast d s hs) with h | h
    · exact .inl h
    · exact .inr ⟨d, hd, .inr ⟨s, hr.committed hs, h⟩⟩

theorem Apart.advances {r r' : Registry} {v w : Version} (h : Apart r v w)
    (hr : r.Advances r') (hlevels : r.LevelsKept r')
    (hpast : ∀ t s, r.state? t = some (.committed s) → s ≤ r.sequence) : Apart r' v w := by
  rcases h with h | h | h | h
  · exact .inl (hr.aborted h)
  · exact .inr (.inl (hr.aborted h))
  · rcases h.advances hr hlevels hpast with h | h
    · exact .inl h
    · exact .inr (.inr (.inl h))
  · rcases h.advances hr hlevels hpast with h | h
    · exact .inr (.inl h)
    · exact .inr (.inr (.inr h))

/-- The version is as it was, or it bears a new mark where the old one did not count. -/
def Remarked (r : Registry) (v v' : Version) : Prop :=
  v' = v ∨ ∃ txn, v' = { v with deletedBy := some txn } ∧ isMarked r v txn = false

private theorem Remarked.createdBy {r : Registry} {v v' : Version} (h : Remarked r v v') :
    v'.createdBy = v.createdBy := by
  rcases h with rfl | ⟨txn, rfl, -⟩
  · rfl
  · rfl

private theorem Supersedes.remarked {r : Registry} {v v' w w' : Version} (h : Supersedes r w v)
    (hv : Remarked r v v') (hw : Remarked r w w') (hissued : r.Issued w.createdBy) :
    r.state? w'.createdBy = some .aborted ∨ Supersedes r w' v' := by
  have hcreated := hw.createdBy
  obtain ⟨d, hd, hsees⟩ := h
  rcases hv with rfl | ⟨txn, rfl, hmark⟩
  · right
    rw [Supersedes, hcreated]
    exact ⟨d, hd, hsees⟩
  · left
    simp only [isMarked, hd, Option.any_some, Bool.or_eq_false_iff] at hmark
    rw [hcreated]
    rcases hsees with rfl | ⟨s, hs, -⟩
    · exact hissued.aborted hmark.1.2 hmark.2
    · rw [Registry.isCommitted_of_state? hs] at hmark
      cases hmark.2

theorem Apart.remarked {r : Registry} {v v' w w' : Version} (h : Apart r v w)
    (hv : Remarked r v v') (hw : Remarked r w w') (hissued : r.Issued v.createdBy)
    (hissued' : r.Issued w.createdBy) : Apart r v' w' := by
  rcases h with h | h | h | h
  · exact .inl (by rw [hv.createdBy]; exact h)
  · exact .inr (.inl (by rw [hw.createdBy]; exact h))
  · rcases h.remarked hw hv hissued with h | h
    · exact .inl h
    · exact .inr (.inr (.inl h))
  · rcases h.remarked hv hw hissued' with h | h
    · exact .inr (.inl h)
    · exact .inr (.inr (.inr h))

theorem apart_of_not_claims {r : Registry} (hr : r.Sound) {txn session : Int} {viewer : Viewer}
    (hv : r.viewer txn session = .ok viewer) {v w : Version} (hw : w.createdBy = txn)
    (hissued : ∀ d, v.deletedBy = some d → r.Issued d)
    (h : (!r.isAborted v.createdBy && !deletionSeen r viewer v) = false) : Apart r v w := by
  obtain ⟨hactive, htxn, hlevel⟩ := Registry.viewer_eq hv
  simp only [Bool.and_eq_false_iff, Bool.not_eq_false'] at h
  rcases h with h | h
  · exact .inl (Registry.isAborted_iff.mp h)
  · refine .inr (.inr (.inr ?_))
    rw [deletionSeen, Option.any_eq_true] at h
    obtain ⟨d, hd, hsees⟩ := h
    -- the creator has seen the deletion, so whoever sees the new version sees it as well
    refine ⟨d, hd, ?_⟩
    unfold Registry.sees at hsees
    rw [Bool.or_eq_true, decide_eq_true_eq, htxn] at hsees
    rcases hsees with rfl | hsees
    · exact .inl hw.symm
    · right
      rw [hw]
      have hd' := hissued d hd
      cases hi : viewer.isolation with
      | readCommitted =>
          rw [hi] at hsees hlevel
          obtain ⟨s, hs⟩ := (Registry.isCommitted_iff hr hd').mp hsees
          exact ⟨s, hs, .inr ⟨_, hactive, .inl hlevel.symm⟩⟩
      | snapshot =>
          rw [hi] at hsees
          simp only [Registry.committedBy, hd'.ne_bootstrap hr, decide_false, Bool.false_or,
            Option.any_eq_true, Registry.committedAt?_eq hr, decide_eq_true_eq] at hsees
          obtain ⟨s, hs, hle⟩ := hsees
          exact ⟨s, hs, .inr ⟨_, hactive, .inr hle⟩⟩

end Versions
end TableIndex
