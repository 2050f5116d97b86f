import Mathlib.Tactic
import TableIndex.Txn.Registry

/-!
# Transactions over time

What is kept of active and of committed transactions never says two things of one of them, and
speaks only of those that were issued. No operation on a registry takes back what a transaction has
reached. One that has ended stays as it ended, and a commit comes after every number drawn before
it.
-/

namespace TableIndex

inductive TxnState
  | active (sequence : Int)
  | committed (sequence : Int)
  | aborted
  deriving DecidableEq, Repr

namespace Registry

inductive Op
  | begin
  | beginAt (level : Isolation)
  | commit (txn : Int)
  | abort (txn : Int)
  | setLevel (txn : Int) (level : Isolation)
  | setGlobalLevel (level : Isolation)
  | close
  | reopen

/-- The registry after one operation, failed or not. -/
def apply (r : Registry) : Op → Registry
  | .begin => r.begin.2
  | .beginAt level => (r.beginAt level).2
  | .commit txn => (r.commit txn).2
  | .abort txn => (r.abort txn).2
  | .setLevel txn level => r.setLevel txn level
  | .setGlobalLevel level => r.setGlobalLevel level
  | .close => r.close
  | .reopen => r.reopen

/-- The registry with one more transaction. -/
def issue (r : Registry) : Registry :=
  { r with
    lastTxn := r.lastTxn + 1
    sequence := r.sequence + 1
    active := r.active.record (r.lastTxn + 1) (r.sequence + 1) }

/-- The registry with a transaction no longer active. -/
def finish (r : Registry) (txn : Int) : Registry :=
  { r with active := r.active.forget txn, overrides := r.overrides.forget txn }

/-- The registry with the commit of a transaction. -/
def settle (r : Registry) (txn : Int) : Registry :=
  { r.finish txn with
    sequence := r.sequence + 1
    committed := r.committed.record txn (r.sequence + 1) }

theorem begin_cases (r : Registry) :
    r.begin = (.error .closed, r) ∨ r.begin = (.ok (r.lastTxn + 1, r.sequence + 1), r.issue) := by
  unfold begin
  split
  · exact .inr rfl
  · exact .inl rfl

theorem beginAt_cases (r : Registry) (level : Isolation) :
    r.beginAt level = (.error .closed, r) ∨
      r.beginAt level = (.ok (r.lastTxn + 1, r.sequence + 1),
        r.issue.setLevel (r.lastTxn + 1) level) := by
  rcases begin_cases r with hrun | hrun
  · exact .inl (by rw [beginAt, hrun])
  · exact .inr (by rw [beginAt, hrun])

theorem commit_cases (r : Registry) (txn : Int) :
    r.isActive txn = false ∧ r.commit txn = (.error (.notActive txn), r) ∨
      r.isActive txn = true ∧ r.commit txn = (.ok (r.sequence + 1), r.settle txn) := by
  unfold commit
  cases r.isActive txn with
  | false => exact .inl ⟨rfl, rfl⟩
  | true => exact .inr ⟨rfl, rfl⟩

theorem abort_cases (r : Registry) (txn : Int) :
    r.isActive txn = false ∧ r.abort txn = (.error (.notActive txn), r) ∨
      r.isActive txn = true ∧ r.abort txn = (.ok (), r.finish txn) := by
  unfold abort
  cases r.isActive txn with
  | false => exact .inl ⟨rfl, rfl⟩
  | true => exact .inr ⟨rfl, rfl⟩

private theorem begunAt?_issue (r : Registry) (u : Int) :
    r.issue.begunAt? u = if u = r.lastTxn + 1 then some (r.sequence + 1) else r.begunAt? u :=
  ByTxn.lookup_record ..

theorem begunAt?_finish (r : Registry) (txn u : Int) :
    (r.finish txn).begunAt? u = if u = txn then none else r.begunAt? u :=
  ByTxn.lookup_forget ..

private theorem committedAt?_settle (r : Registry) (txn u : Int) :
    (r.settle txn).committedAt? u =
      if u = txn then some (r.sequence + 1) else r.committedAt? u :=
  ByTxn.lookup_record ..

/-- Active and committed transactions have been issued, and none is both. -/
structure Sound (r : Registry) : Prop where
  active_issued : ∀ {t s}, r.begunAt? t = some s → 0 < t ∧ t ≤ r.lastTxn
  committed_issued : ∀ {t s}, r.committedAt? t = some s → 0 < t ∧ t ≤ r.lastTxn
  not_both : ∀ {t s}, r.committedAt? t = some s → r.begunAt? t = none
  lastTxn_nonneg : 0 ≤ r.lastTxn

namespace Sound

theorem empty : Sound {} := ⟨nofun, nofun, nofun, le_rfl⟩

private theorem congr {r r' : Registry} (h : r.Sound) (htxn : r'.lastTxn = r.lastTxn)
    (hactive : r'.active = r.active) (hcommitted : r'.committed = r.committed) : r'.Sound := by
  obtain ⟨hbegun, hissued, hboth, hnonneg⟩ := h
  rw [← htxn] at hbegun hissued hnonneg
  unfold begunAt? committedAt? at *
  rw [← hactive] at hbegun hboth
  rw [← hcommitted] at hissued hboth
  exact ⟨hbegun, hissued, hboth, hnonneg⟩

private theorem issue {r : Registry} (h : r.Sound) : r.issue.Sound := by
  have hnonneg : 0 ≤ r.lastTxn := h.lastTxn_nonneg
  have hissue : r.issue.lastTxn = r.lastTxn + 1 := rfl
  constructor
  · intro t s ht
    rw [begunAt?_issue] at ht
    split at ht
    · omega
    · have := h.active_issued ht
      omega
  · intro t s ht
    have := h.committed_issued (t := t) (s := s) ht
    omega
  · intro t s ht
    have hle : t ≤ r.lastTxn := (h.committed_issued (t := t) (s := s) ht).2
    rw [begunAt?_issue, if_neg (by omega)]
    exact h.not_both ht
  · omega

private theorem finish {r : Registry} (h : r.Sound) (txn : Int) : (r.finish txn).Sound := by
  refine ⟨fun ht => ?_, h.committed_issued, fun ht => ?_, h.lastTxn_nonneg⟩
  · rw [begunAt?_finish] at ht
    split at ht
    · cases ht
    · exact h.active_issued ht
  · rw [begunAt?_finish, h.not_both ht, ite_self]

private theorem settle {r : Registry} (h : r.Sound) {txn : Int} (hactive : r.isActive txn = true) :
    (r.settle txn).Sound := by
  obtain ⟨n, hn⟩ := Option.isSome_iff_exists.mp hactive
  refine ⟨(h.finish txn).active_issued, fun {t s} ht => ?_, fun {t s} ht => ?_, h.lastTxn_nonneg⟩
  · rw [committedAt?_settle] at ht
    split at ht
    · next hu =>
        subst hu
        exact h.active_issued hn
    · exact h.committed_issued ht
  · have hbegun : (r.settle txn).begunAt? t = (r.finish txn).begunAt? t := rfl
    rw [hbegun, begunAt?_finish]
    rw [committedAt?_settle] at ht
    split at ht
    · next hu => rw [if_pos hu]
    · next hu => rw [if_neg hu, h.not_both ht]

theorem apply {r : Registry} (h : r.Sound) (op : Op) : (r.apply op).Sound := by
  cases op with
  | begin =>
      rw [Registry.apply]
      rcases begin_cases r with hrun | hrun <;> rw [hrun]
      · exact h
      · exact h.issue
  | beginAt level =>
      rw [Registry.apply]
      rcases beginAt_cases r level with hrun | hrun <;> rw [hrun]
      · exact h
      · exact h.issue.congr rfl rfl rfl
  | commit txn =>
      rw [Registry.apply]
      rcases commit_cases r txn with ⟨-, hrun⟩ | ⟨hactive, hrun⟩ <;> rw [hrun]
      · exact h
      · exact h.settle hactive
  | abort txn =>
      rw [Registry.apply]
      rcases abort_cases r txn with ⟨-, hrun⟩ | ⟨-, hrun⟩ <;> rw [hrun]
      · exact h
      · exact h.finish txn
  | setLevel txn level => exact h.congr rfl rfl rfl
  | setGlobalLevel level => exact h.congr rfl rfl rfl
  | close => exact h.congr rfl rfl rfl
  | reopen => exact h.congr rfl rfl rfl

end Sound

/-- The state of an issued transaction, with the number that it has drawn. -/
def state? (r : Registry) (txn : Int) : Option TxnState :=
  match r.begunAt? txn with
  | some sequence => some (.active sequence)
  | none =>
    match r.committedAt? txn with
    | some sequence => some (.committed sequence)
    | none => if r.isAborted txn then some .aborted else none

private theorem state?_of_begunAt? {r : Registry} {txn s : Int} (h : r.begunAt? txn = some s) :
    r.state? txn = some (.active s) := by
  rw [state?, h]

private theorem state?_of_not_active {r : Registry} {txn : Int} (h : r.begunAt? txn = none) :
    r.state? txn = ((r.committedAt? txn).map TxnState.committed).or
      (if r.isAborted txn then some .aborted else none) := by
  rw [state?, h]
  cases r.committedAt? txn with
  | none => rfl
  | some s => rfl

theorem begunAt?_eq {r : Registry} {txn s : Int} :
    r.begunAt? txn = some s ↔ r.state? txn = some (.active s) := by
  cases hb : r.begunAt? txn with
  | some n => simp [state?_of_begunAt? hb]
  | none =>
      rw [state?_of_not_active hb]
      cases r.committedAt? txn with
      | some n => simp
      | none => simp

theorem isActive_iff {r : Registry} {txn : Int} :
    r.isActive txn = true ↔ ∃ s, r.state? txn = some (.active s) := by
  simp only [isActive, Option.isSome_iff_exists, begunAt?_eq]

theorem committedAt?_of_state? {r : Registry} {txn s : Int}
    (h : r.state? txn = some (.committed s)) : r.committedAt? txn = some s := by
  cases hb : r.begunAt? txn with
  | some n => simp [state?_of_begunAt? hb] at h
  | none =>
      rw [state?_of_not_active hb] at h
      cases hc : r.committedAt? txn with
      | some n => simpa [hc] using h
      | none => simp [hc] at h

theorem committedAt?_eq {r : Registry} (hr : r.Sound) {txn s : Int} :
    r.committedAt? txn = some s ↔ r.state? txn = some (.committed s) := by
  refine ⟨fun h => ?_, committedAt?_of_state?⟩
  rw [state?_of_not_active (hr.not_both h), h]
  rfl

theorem isAborted_iff {r : Registry} {txn : Int} :
    r.isAborted txn = true ↔ r.state? txn = some .aborted := by
  cases hb : r.begunAt? txn with
  | some n => simp [state?_of_begunAt? hb, isAborted, isActive, hb]
  | none =>
      rw [state?_of_not_active hb]
      cases hc : r.committedAt? txn with
      | some n => simp [isAborted, isCommitted, hc]
      | none => simp

theorem state?_aborted_iff {r : Registry} {txn : Int} :
    r.state? txn = some .aborted ↔ (0 < txn ∧ txn ≤ r.lastTxn) ∧ r.begunAt? txn = none ∧
      r.committedAt? txn = none := by
  rw [← isAborted_iff]
  simp only [isAborted, isActive, isCommitted, Bool.and_eq_true, decide_eq_true_eq,
    Bool.not_eq_true', Bool.or_eq_false_iff, decide_eq_false_iff_not, Option.isSome_eq_false_iff,
    Option.isNone_iff_eq_none]
  constructor
  · rintro ⟨⟨hissued, hbegun⟩, -, hcommitted⟩
    exact ⟨hissued, hbegun, hcommitted⟩
  · rintro ⟨hissued, hbegun, hcommitted⟩
    refine ⟨⟨hissued, hbegun⟩, ?_, hcommitted⟩
    rw [bootstrap]
    omega

/-- Among the numbers that were issued, exactly these have a state. -/
theorem state?_isSome_iff {r : Registry} (hr : r.Sound) {txn : Int} :
    (∃ s, r.state? txn = some s) ↔ 0 < txn ∧ txn ≤ r.lastTxn := by
  constructor
  · rintro ⟨s, hs⟩
    cases s with
    | active n => exact hr.active_issued (begunAt?_eq.mpr hs)
    | committed n => exact hr.committed_issued (committedAt?_of_state? hs)
    | aborted => exact (state?_aborted_iff.mp hs).1
  · intro hissued
    cases hb : r.begunAt? txn with
    | some n => exact ⟨_, state?_of_begunAt? hb⟩
    | none =>
        cases hc : r.committedAt? txn with
        | some n => exact ⟨_, (committedAt?_eq hr).mp hc⟩
        | none => exact ⟨_, state?_aborted_iff.mpr ⟨hissued, hb, hc⟩⟩

theorem state?_congr {r r' : Registry} {txn : Int} (hbegun : r'.begunAt? txn = r.begunAt? txn)
    (hcommitted : r'.committedAt? txn = r.committedAt? txn)
    (hissued : txn ≤ r'.lastTxn ↔ txn ≤ r.lastTxn) : r'.state? txn = r.state? txn := by
  have haborted : r'.isAborted txn = r.isAborted txn := by
    simp only [isAborted, isActive, isCommitted, hbegun, hcommitted, hissued]
  rw [state?, state?, hbegun, hcommitted, haborted]

theorem state?_issue (r : Registry) (u : Int) :
    r.issue.state? u =
      if u = r.lastTxn + 1 then some (.active (r.sequence + 1)) else r.state? u := by
  by_cases hu : u = r.lastTxn + 1
  · rw [if_pos hu]
    exact state?_of_begunAt? ((begunAt?_issue r u).trans (if_pos hu))
  · rw [if_neg hu]
    refine state?_congr ((begunAt?_issue r u).trans (if_neg hu)) rfl ?_
    simp only [issue]
    omega

theorem state?_finish {r : Registry} (hr : r.Sound) {txn : Int} (hactive : r.isActive txn = true)
    (u : Int) : (r.finish txn).state? u = if u = txn then some .aborted else r.state? u := by
  by_cases hu : u = txn
  · subst hu
    obtain ⟨n, hn⟩ := Option.isSome_iff_exists.mp hactive
    rw [if_pos rfl, state?_aborted_iff]
    refine ⟨hr.active_issued hn, (begunAt?_finish r u u).trans (if_pos rfl), ?_⟩
    rw [Option.eq_none_iff_forall_ne_some]
    intro s hs
    rw [hr.not_both hs] at hn
    cases hn
  · rw [if_neg hu]
    exact state?_congr ((begunAt?_finish r txn u).trans (if_neg hu)) rfl Iff.rfl

theorem state?_settle (r : Registry) (txn u : Int) :
    (r.settle txn).state? u =
      if u = txn then some (.committed (r.sequence + 1)) else r.state? u := by
  have hbegun : (r.settle txn).begunAt? u = if u = txn then none else r.begunAt? u :=
    begunAt?_finish r txn u
  by_cases hu : u = txn
  · rw [if_pos hu] at hbegun ⊢
    rw [state?_of_not_active hbegun, committedAt?_settle, if_pos hu]
    rfl
  · rw [if_neg hu] at hbegun ⊢
    exact state?_congr hbegun ((committedAt?_settle r txn u).trans (if_neg hu)) Iff.rfl

/-- The registry has come from `r` to `r'`. -/
structure Advances (r r' : Registry) : Prop where
  sequence_le : r.sequence ≤ r'.sequence
  aborted : ∀ {t}, r.state? t = some .aborted → r'.state? t = some .aborted
  committed : ∀ {t s}, r.state? t = some (.committed s) → r'.state? t = some (.committed s)
  active : ∀ {t s}, r.state? t = some (.active s) →
    r'.state? t = some (.active s) ∨ r'.state? t = some .aborted ∨
      ∃ s', r.sequence < s' ∧ r'.state? t = some (.committed s')
  recent : ∀ {t s}, r'.state? t = some (.committed s) →
    r.state? t = some (.committed s) ∨ s ≤ r'.sequence

namespace Advances

theorem refl (r : Registry) : r.Advances r := ⟨le_rfl, id, id, .inl, .inl⟩

theorem trans {r r' r'' : Registry} (h : r.Advances r') (h' : r'.Advances r'') :
    r.Advances r'' where
  sequence_le := h.sequence_le.trans h'.sequence_le
  aborted := fun ht => h'.aborted (h.aborted ht)
  committed := fun ht => h'.committed (h.committed ht)
  active := by
    intro t s ht
    rcases h.active ht with ht' | ht' | ⟨s', hlt, ht'⟩
    · rcases h'.active ht' with ht'' | ht'' | ⟨s', hlt, ht''⟩
      · exact .inl ht''
      · exact .inr (.inl ht'')
      · exact .inr (.inr ⟨s', h.sequence_le.trans_lt hlt, ht''⟩)
    · exact .inr (.inl (h'.aborted ht'))
    · exact .inr (.inr ⟨s', hlt, h'.committed ht'⟩)
  recent := by
    intro t s ht
    rcases h'.recent ht with ht' | hle
    · exact (h.recent ht').imp_right fun hle => hle.trans h'.sequence_le
    · exact .inr hle

private theorem of_states {r r' : Registry} (hstate : ∀ u, r'.state? u = r.state? u)
    (hs : r'.sequence = r.sequence) : r.Advances r' := by
  constructor
  · exact hs.symm.le
  · intro t ht
    rwa [hstate]
  · intro t s ht
    rwa [hstate]
  · intro t s ht
    left
    rwa [hstate]
  · intro t s ht
    left
    rwa [hstate] at ht

private theorem of_issue {r r' : Registry} (hr : r.Sound)
    (hstate : ∀ u, r'.state? u = r.issue.state? u) (hs : r'.sequence = r.sequence + 1) :
    r.Advances r' := by
  have hold : ∀ {t s}, r.state? t = some s → r'.state? t = some s := by
    intro t s ht
    have hle := ((state?_isSome_iff hr).mp ⟨s, ht⟩).2
    rw [hstate, state?_issue, if_neg (by omega)]
    exact ht
  constructor
  · omega
  · exact hold
  · exact hold
  · exact fun ht => .inl (hold ht)
  · intro t s ht
    left
    rw [hstate, state?_issue] at ht
    split at ht
    · cases ht
    · exact ht

private theorem of_end {r r' : Registry} {txn n : Int} {s : TxnState}
    (h : r.state? txn = some (.active n))
    (hstate : ∀ u, r'.state? u = if u = txn then some s else r.state? u)
    (hs : r.sequence ≤ r'.sequence)
    (hend : s = .aborted ∨ s = .committed r'.sequence ∧ r.sequence < r'.sequence) :
    r.Advances r' := by
  have hold : ∀ {t u}, r.state? t = some u → (∀ m, u ≠ .active m) → r'.state? t = some u := by
    intro t u ht hu
    rw [hstate, if_neg]
    · exact ht
    · rintro rfl
      exact hu n (Option.some.inj (ht.symm.trans h))
  constructor
  · exact hs
  · exact fun ht => hold ht (by simp)
  · exact fun ht => hold ht (by simp)
  · intro t m ht
    rw [hstate]
    by_cases htxn : t = txn
    · right
      rw [if_pos htxn]
      rcases hend with rfl | ⟨rfl, hlt⟩
      · exact .inl rfl
      · exact .inr ⟨_, hlt, rfl⟩
    · left
      rw [if_neg htxn]
      exact ht
  · intro t m ht
    rw [hstate] at ht
    split at ht
    · right
      rcases hend with rfl | ⟨rfl, -⟩
      · cases ht
      · simp only [Option.some.injEq, TxnState.committed.injEq] at ht
        exact ht.symm.le
    · exact .inl ht

theorem apply {r : Registry} (hr : r.Sound) (op : Op) : r.Advances (r.apply op) := by
  have hsame : ∀ {r' : Registry}, r'.lastTxn = r.lastTxn → r'.active = r.active →
      r'.committed = r.committed → ∀ u, r'.state? u = r.state? u := by
    intro r' htxn hactive hcommitted u
    exact state?_congr (by rw [begunAt?, begunAt?, hactive])
      (by rw [committedAt?, committedAt?, hcommitted]) (by rw [htxn])
  cases op with
  | begin =>
      rw [Registry.apply]
      rcases begin_cases r with hrun | hrun <;> rw [hrun]
      · exact refl r
      · exact of_issue hr (fun _ => rfl) rfl
  | beginAt level =>
      rw [Registry.apply]
      rcases beginAt_cases r level with hrun | hrun <;> rw [hrun]
      · exact refl r
      · exact of_issue hr (fun _ => rfl) rfl
  | commit txn =>
      rw [Registry.apply]
      rcases commit_cases r txn with ⟨-, hrun⟩ | ⟨hactive, hrun⟩ <;> rw [hrun]
      · exact refl r
      · obtain ⟨n, hn⟩ := isActive_iff.mp hactive
        have hlt : r.sequence < (r.settle txn).sequence := by simp [settle]
        exact of_end hn (state?_settle r txn) hlt.le (.inr ⟨rfl, hlt⟩)
  | abort txn =>
      rw [Registry.apply]
      rcases abort_cases r txn with ⟨-, hrun⟩ | ⟨hactive, hrun⟩ <;> rw [hrun]
      · exact refl r
      · obtain ⟨n, hn⟩ := isActive_iff.mp hactive
        exact of_end hn (state?_finish hr hactive) le_rfl (.inl rfl)
  | setLevel txn level => exact of_states (hsame rfl rfl rfl) rfl
  | setGlobalLevel level => exact of_states (hsame rfl rfl rfl) rfl
  | close => exact of_states (hsame rfl rfl rfl) rfl
  | reopen => exact of_states (hsame rfl rfl rfl) rfl

end Advances
end Registry
end TableIndex
