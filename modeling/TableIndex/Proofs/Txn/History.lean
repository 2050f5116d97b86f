import TableIndex.Proofs.Txn.Snapshot

/-!
# What a transaction sees of the history

The registry compares numbers that begins and commits have drawn from one sequence. By these an
active transaction sees what the history says: its own writes and those of the bootstrap, and the
commits of the whole run or, under a snapshot, those that came before its begin.
-/

namespace TableIndex

/-- At some point of a run comes an operation that stands in `P` to those before it. -/
def Occurs {α : Type} (P : List α → α → Prop) (ops : List α) : Prop :=
  ∃ before op after, ops = before ++ op :: after ∧ P before op

theorem occurs_nil {α : Type} (P : List α → α → Prop) : ¬ Occurs P [] := by
  rintro ⟨before, op, after, h, -⟩
  exact List.cons_ne_nil op after (List.append_eq_nil_iff.mp h.symm).2

theorem occurs_append {α : Type} {P : List α → α → Prop} {ops : List α} {op : α} :
    Occurs P (ops ++ [op]) ↔ Occurs P ops ∨ P ops op := by
  constructor
  · rintro ⟨before, x, after, h, hx⟩
    rcases List.eq_nil_or_concat after with rfl | ⟨init, y, rfl⟩
    · obtain ⟨rfl, hop⟩ := List.append_inj' h rfl
      cases hop
      exact .inr hx
    · rw [List.concat_eq_append, ← List.cons_append, ← List.append_assoc] at h
      exact .inl ⟨before, x, init, (List.append_inj' h rfl).1, hx⟩
  · rintro (⟨before, x, after, rfl, hx⟩ | hop)
    · exact ⟨before, x, after ++ [op], by simp, hx⟩
    · exact ⟨ops, op, [], rfl, hop⟩

namespace Registry

/-- The run commits the transaction. -/
def Commits (ops : List Op) (txn : Int) : Prop :=
  Occurs (fun before op => op = .commit txn ∧ ∃ sequence,
    ((run before).commit txn).1 = .ok sequence) ops

private theorem Advances.was_active {r r' : Registry} (h : r.Advances r') {txn : Int}
    (hissued : r.Issued txn) (hactive : r'.isActive txn = true) : r.isActive txn = true := by
  obtain ⟨m, hm⟩ := isActive_iff.mp hactive
  obtain ⟨s, hs⟩ := hissued
  cases s with
  | active n => exact isActive_iff.mpr ⟨n, hs⟩
  | committed n =>
      rw [h.committed hs] at hm
      cases hm
  | aborted =>
      rw [h.aborted hs] at hm
      cases hm

theorem advances_run (before after : List Op) : (run before).Advances (run (before ++ after)) := by
  induction after using List.reverseRecOn with
  | nil =>
      rw [List.append_nil]
      exact .refl _
  | append_singleton after op ih =>
      rw [← List.append_assoc, run_append]
      exact ih.trans (.apply (run_sound _) op)

private theorem committed_le_run {ops : List Op} {u n : Int}
    (hu : (run ops).state? u = some (.committed n)) : n ≤ (run ops).sequence := by
  induction ops using List.reverseRecOn with
  | nil => cases committedAt?_of_state? hu
  | append_singleton ops op ih =>
      rw [run_append] at hu ⊢
      have hr := Advances.apply (run_sound ops) op
      rcases hr.recent hu with hold | hle
      · exact (ih hold).trans hr.sequence_le
      · exact hle

private theorem commit_eq_ok {r : Registry} {txn : Int} :
    (∃ sequence, (r.commit txn).1 = .ok sequence) ↔ r.isActive txn = true := by
  rcases commit_cases r txn with ⟨hactive, hrun⟩ | ⟨hactive, hrun⟩
  · simp [hrun, hactive]
  · simp [hrun, hactive]

theorem state?_commit {r : Registry} {txn : Int} (h : r.isActive txn = true) :
    (r.commit txn).2.state? txn = some (.committed (r.sequence + 1)) := by
  rw [commit, if_pos h]
  exact (state?_settle r txn txn).trans (if_pos rfl)

theorem state?_abort {r : Registry} (hr : r.Sound) {txn : Int} (h : r.isActive txn = true) :
    (r.abort txn).2.state? txn = some .aborted := by
  rw [abort, if_pos h]
  exact (state?_finish hr h txn).trans (if_pos rfl)

private theorem committed_apply {r : Registry} (hr : r.Sound) {op : Op} {txn : Int} :
    (∃ n, (r.apply op).state? txn = some (.committed n)) ↔
      (∃ n, r.state? txn = some (.committed n)) ∨
        op = .commit txn ∧ ∃ sequence, (r.commit txn).1 = .ok sequence := by
  constructor
  · rintro ⟨n, hn⟩
    rcases apply_cases r op txn with hbegins | ⟨hstate, -⟩ | ⟨rfl | rfl, hactive, -⟩
    · rw [(hbegins.apply hr).2.1] at hn
      cases hn
    · exact .inl ⟨n, hstate.symm.trans hn⟩
    · exact .inr ⟨rfl, commit_eq_ok.mpr hactive⟩
    · rw [apply, state?_abort hr hactive] at hn
      cases hn
  · rintro (⟨n, hn⟩ | ⟨rfl, hok⟩)
    · exact ⟨n, (Advances.apply hr op).committed hn⟩
    · exact ⟨_, state?_commit (commit_eq_ok.mp hok)⟩

private theorem isCommitted_run {ops : List Op} {txn : Int} :
    (run ops).isCommitted txn = true ↔ txn = bootstrap ∨ Commits ops txn := by
  suffices h : (∃ n, (run ops).state? txn = some (.committed n)) ↔ Commits ops txn by
    simp only [isCommitted, Bool.or_eq_true, decide_eq_true_eq, Option.isSome_iff_exists,
      committedAt?_eq (run_sound ops), h]
  induction ops using List.reverseRecOn with
  | nil =>
      refine iff_of_false ?_ (occurs_nil _)
      rintro ⟨n, hn⟩
      cases committedAt?_of_state? hn
  | append_singleton ops op ih =>
      rw [run_append, committed_apply (run_sound ops), ih]
      exact occurs_append.symm

theorem exists_viewer {r : Registry} {txn : Int} (h : r.isActive txn = true) (session : Int) :
    ∃ viewer, r.viewer txn session = .ok viewer := by
  obtain ⟨n, hn⟩ := Option.isSome_iff_exists.mp h
  rw [viewer, hn]
  exact ⟨_, rfl⟩

private theorem sees_eq_visibleTo {r : Registry} {txn session : Int} {viewer : Viewer}
    (h : r.viewer txn session = .ok viewer) (writer : Int) :
    r.sees viewer writer = r.visibleTo writer txn := by
  obtain ⟨hactive, htxn, hlevel⟩ := viewer_eq h
  rw [sees, visibleTo, htxn, hlevel, begunAt?_eq.mpr hactive]
  rfl

private theorem sees_readCommitted {r : Registry} {viewer : Viewer}
    (h : viewer.isolation = .readCommitted) {writer : Int} :
    r.sees viewer writer = true ↔ writer = viewer.txn ∨ r.isCommitted writer = true := by
  simp [sees, h]

private theorem sees_snapshot {r : Registry} (hr : r.Sound) {viewer : Viewer}
    (h : viewer.isolation = .snapshot)
    (hnow : ∀ u n, r.state? u = some (.committed n) → n ≤ viewer.snapshot) {writer : Int} :
    r.sees viewer writer = true ↔ writer = viewer.txn ∨ r.isCommitted writer = true := by
  have hany : (r.committedAt? writer).any (· ≤ viewer.snapshot) =
      (r.committedAt? writer).isSome := by
    cases hc : r.committedAt? writer with
    | none => rfl
    | some n => simpa using hnow writer n ((committedAt?_eq hr).mp hc)
  simp [sees, h, committedBy, hany, isCommitted]

private theorem isCommitted_of_sees {r : Registry} {viewer : Viewer} {writer : Int}
    (h : r.sees viewer writer = true) (hne : writer ≠ viewer.txn) :
    r.isCommitted writer = true := by
  cases hi : viewer.isolation with
  | readCommitted => exact (sees_readCommitted hi).mp h |>.resolve_left hne
  | snapshot =>
      simp only [sees, hi, hne, decide_false, Bool.false_or, committedBy, Bool.or_eq_true] at h
      rw [isCommitted, Bool.or_eq_true]
      exact h.imp_right Option.isSome_of_any

private theorem Holds.advances {r r' : Registry} {viewer : Viewer} (h : r.Holds viewer)
    (hsound : r'.Sound) (hr : r.Advances r') (hactive : r'.isActive viewer.txn = true) :
    r'.Holds viewer :=
  ⟨hsound, h.isolation, hr.stays_active h.active hactive, h.snapshot_le.trans hr.sequence_le⟩

private theorem Holds.sees_run {before after : List Op} {viewer : Viewer}
    (h : (run before).Holds viewer) (hactive : (run (before ++ after)).isActive viewer.txn = true)
    (writer : Int) :
    (run (before ++ after)).sees viewer writer = (run before).sees viewer writer := by
  induction after using List.reverseRecOn with
  | nil => rw [List.append_nil]
  | append_singleton after op ih =>
      have hr := advances_run before after
      rw [← List.append_assoc, run_append] at hactive ⊢
      have hbefore : (run (before ++ after)).isActive viewer.txn = true :=
        (Advances.apply (run_sound _) op).was_active (hr.issued ⟨_, h.active⟩) hactive
      rw [(h.advances (run_sound _) hr hbefore).sees_apply, ih hbefore]

private theorem commits_begin {before : List Op} {start : Op} {txn : Int}
    (hbegins : Begins (run before) txn start) {writer : Int} :
    Commits (before ++ [start]) writer ↔ Commits before writer := by
  rw [Commits, occurs_append, or_iff_left]
  · rfl
  · rintro ⟨rfl, -⟩
    cases hbegins

private theorem sees_begun {before after : List Op} {start : Op} {txn session : Int}
    {viewer : Viewer} (hbegins : Begins (run before) txn start)
    (h : (run (before ++ start :: after)).viewer txn session = .ok viewer)
    (hsnapshot : viewer.isolation = .snapshot) {writer : Int} :
    (run (before ++ start :: after)).sees viewer writer = true ↔
      writer = txn ∨ writer = bootstrap ∨ Commits before writer := by
  obtain ⟨hactive, rfl, -⟩ := viewer_eq h
  rw [List.append_cons] at hactive ⊢
  have hbegun : (run (before ++ [start])).state? viewer.txn =
      some (.active (run (before ++ [start])).sequence) := by
    rw [run_append]
    exact (hbegins.apply (run_sound before)).2.1
  have hlater : (run (before ++ [start] ++ after)).isActive viewer.txn = true :=
    isActive_iff.mpr ⟨_, hactive⟩
  have hnow : viewer.snapshot = (run (before ++ [start])).sequence := by
    rw [(advances_run _ after).stays_active hbegun hlater, Option.some_inj] at hactive
    exact (TxnState.active.inj hactive).symm
  have hholds : (run (before ++ [start])).Holds viewer :=
    ⟨run_sound _, hsnapshot, hnow ▸ hbegun, hnow.le⟩
  rw [hholds.sees_run hlater,
    sees_snapshot (run_sound _) hsnapshot fun _ _ hu => hnow ▸ committed_le_run hu, isCommitted_run,
    commits_begin hbegins]

/-- An active transaction has begun, and its view shows what is visible to it: its own writes, those
of the bootstrap, and the commits of the run or, under a snapshot, those before its begin. Nothing
else is visible, so no transaction that is active, that has aborted or that was never issued. -/
theorem visible_history {ops : List Op} {txn : Int} (h : (run ops).isActive txn = true) :
    (∃ before start after, ops = before ++ start :: after ∧ Begins (run before) txn start) ∧
      ∀ before start after, ops = before ++ start :: after → Begins (run before) txn start →
        ∀ session writer, ∃ viewer, (run ops).viewer txn session = .ok viewer ∧
          (run ops).sees viewer writer = (run ops).visibleTo writer txn ∧
          ((run ops).visibleTo writer txn = true ↔ writer = txn ∨ writer = bootstrap ∨
            (run ops).level txn = .readCommitted ∧ Commits ops writer ∨
            (run ops).level txn = .snapshot ∧ Commits before writer) ∧
          (writer ≠ txn → writer ≠ bootstrap →
            (run ops).isActive writer = true ∨ (run ops).isAborted writer = true ∨
              ¬ (run ops).Issued writer →
            (run ops).visibleTo writer txn = false) := by
  refine ⟨exists_begins h, ?_⟩
  rintro before start after rfl hbegins session writer
  obtain ⟨viewer, hviewer⟩ := exists_viewer h session
  obtain ⟨-, htxn, hlevel⟩ := viewer_eq hviewer
  have hagree := sees_eq_visibleTo hviewer writer
  refine ⟨viewer, hviewer, hagree, ?_, ?_⟩
  · rw [← hagree, ← hlevel]
    cases hi : viewer.isolation with
    | readCommitted =>
        rw [sees_readCommitted hi, isCommitted_run, htxn]
        simp
    | snapshot =>
        rw [sees_begun hbegins hviewer hi]
        simp
  · intro hne hboot hstate
    rw [Bool.eq_false_iff, ne_eq, ← hagree]
    intro hsees
    have hcommitted := isCommitted_of_sees hsees (htxn ▸ hne)
    simp only [isCommitted, hboot, decide_false, Bool.false_or, Option.isSome_iff_exists,
      committedAt?_eq (run_sound _)] at hcommitted
    obtain ⟨n, hn⟩ := hcommitted
    rw [isActive_iff, isAborted_iff, Issued, hn] at hstate
    simp at hstate

/-- The third transaction sees the commit before its begin, and not the one after it. -/
theorem visible_history_snapshot :
    ∃ (ops : List Op) (txn : Int), (run ops).isActive txn = true ∧
      (run ops).visibleTo 1 txn = true ∧ (run ops).isCommitted 2 = true ∧
      (run ops).visibleTo 2 txn = false ∧
      (∃ before start after, ops = before ++ start :: after ∧ Begins (run before) txn start) ∧
        ∀ before start after, ops = before ++ start :: after → Begins (run before) txn start →
          ∀ session writer, ∃ viewer, (run ops).viewer txn session = .ok viewer ∧
            (run ops).sees viewer writer = (run ops).visibleTo writer txn ∧
            ((run ops).visibleTo writer txn = true ↔ writer = txn ∨ writer = bootstrap ∨
              (run ops).level txn = .readCommitted ∧ Commits ops writer ∨
              (run ops).level txn = .snapshot ∧ Commits before writer) ∧
            (writer ≠ txn → writer ≠ bootstrap →
              (run ops).isActive writer = true ∨ (run ops).isAborted writer = true ∨
                ¬ (run ops).Issued writer →
              (run ops).visibleTo writer txn = false) :=
  ⟨[.begin, .commit 1, .begin, .beginAt .snapshot, .commit 2], 3, rfl, rfl, rfl, rfl,
    visible_history rfl⟩

end Registry
end TableIndex
