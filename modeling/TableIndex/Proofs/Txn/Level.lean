import TableIndex.Proofs.Txn.Succession

/-!
# The level of a transaction

A begin stores no level. Each use looks for the one that was set for the number of the transaction,
by its begin, later or before the number was issued, and else takes the global level of the moment.
An active transaction is therefore at the level that its begin fixes only if neither a level set in
advance nor a later change of the global one comes between.
-/

namespace TableIndex.Registry

namespace Op

/-- The level that an operation sets for a transaction. -/
def levelFor? (txn : Int) : Op → Option Isolation
  | setLevel t level => if t = txn then some level else none
  | _ => none

/-- The level that a begin names. -/
def own? : Op → Option Isolation
  | beginAt level => some level
  | _ => none

def global? : Op → Option Isolation
  | setGlobalLevel level => some level
  | _ => none

end Op

/-- A new registry after a run of operations. -/
def run (ops : List Op) : Registry := ops.foldl apply {}

/-- The last level that a run sets for a transaction. -/
def lastLevel (txn : Int) (ops : List Op) : Option Isolation :=
  (ops.filterMap (Op.levelFor? txn)).getLast?

/-- The global level in force after a run. -/
def lastGlobal (ops : List Op) : Isolation :=
  (ops.filterMap Op.global?).getLast?.getD .readCommitted

/-- The operation begins the transaction. -/
inductive Begins (r : Registry) (txn : Int) : Op → Prop
  | begin {sequence : Int} {r' : Registry} :
      r.begin = (.ok (txn, sequence), r') → Begins r txn .begin
  | beginAt {level : Isolation} {sequence : Int} {r' : Registry} :
      r.beginAt level = (.ok (txn, sequence), r') → Begins r txn (.beginAt level)

/-- The level of a transaction that `start` begins between two runs, were it fixed by that begin and
by what is set for the transaction later. -/
def fixedLevel (txn : Int) (before : List Op) (start : Op) (after : List Op) : Isolation :=
  ((lastLevel txn after).or start.own?).getD (lastGlobal before)

theorem run_append (ops : List Op) (op : Op) : run (ops ++ [op]) = (run ops).apply op := by
  simp [run]

private theorem lastLevel_append (txn : Int) (ops : List Op) (op : Op) :
    lastLevel txn (ops ++ [op]) = (op.levelFor? txn).or (lastLevel txn ops) := by
  cases h : op.levelFor? txn <;> simp [lastLevel, h]

private theorem lastGlobal_append (ops : List Op) (op : Op) :
    lastGlobal (ops ++ [op]) = op.global?.getD (lastGlobal ops) := by
  cases h : op.global? <;> simp [lastGlobal, h]

theorem run_sound (ops : List Op) : (run ops).Sound := by
  induction ops using List.reverseRecOn with
  | nil => exact .empty
  | append_singleton ops op ih =>
      rw [run_append]
      exact ih.apply op

theorem Begins.apply {r : Registry} (hr : r.Sound) {txn : Int} {op : Op} (h : Begins r txn op) :
    r.state? txn = none ∧ (r.apply op).state? txn = some (.active (r.apply op).sequence) ∧
      (r.apply op).overrides.lookup txn = op.own?.or (r.overrides.lookup txn) := by
  have hfresh : r.state? (r.lastTxn + 1) = none := by
    rw [Option.eq_none_iff_forall_ne_some]
    intro s hs
    have := (state?_isSome_iff hr).mp ⟨s, hs⟩
    omega
  have hactive : r.issue.state? (r.lastTxn + 1) = some (.active (r.sequence + 1)) :=
    (state?_issue r _).trans (if_pos rfl)
  cases h with
  | begin hrun =>
      rcases begin_cases r with hcase | hcase
      · rw [hcase] at hrun
        cases hrun
      · rw [Registry.apply, hcase]
        rw [hcase] at hrun
        cases hrun
        exact ⟨hfresh, hactive, rfl⟩
  | @beginAt level _ _ hrun =>
      rcases beginAt_cases r level with hcase | hcase
      · rw [hcase] at hrun
        cases hrun
      · rw [Registry.apply, hcase]
        rw [hcase] at hrun
        cases hrun
        exact ⟨hfresh, hactive, (ByTxn.lookup_record ..).trans (if_pos rfl)⟩

/-- An operation begins a transaction, or leaves its state alone, or ends it. -/
theorem apply_cases (r : Registry) (op : Op) (txn : Int) :
    Begins r txn op ∨
      ((r.apply op).state? txn = r.state? txn ∧
        (r.apply op).overrides.lookup txn = (op.levelFor? txn).or (r.overrides.lookup txn)) ∨
      ((op = .commit txn ∨ op = .abort txn) ∧ r.isActive txn = true ∧
        (r.apply op).isActive txn = false) := by
  cases op with
  | begin =>
      rcases begin_cases r with hrun | hrun
      · right
        left
        rw [apply, hrun]
        exact ⟨rfl, rfl⟩
      · by_cases htxn : txn = r.lastTxn + 1
        · subst htxn
          exact .inl (.begin hrun)
        · right
          left
          rw [apply, hrun]
          exact ⟨(state?_issue r txn).trans (if_neg htxn), rfl⟩
  | beginAt level =>
      rcases beginAt_cases r level with hrun | hrun
      · right
        left
        rw [apply, hrun]
        exact ⟨rfl, rfl⟩
      · by_cases htxn : txn = r.lastTxn + 1
        · subst htxn
          exact .inl (.beginAt hrun)
        · right
          left
          rw [apply, hrun]
          exact ⟨(state?_issue r txn).trans (if_neg htxn),
            (ByTxn.lookup_record ..).trans (if_neg htxn)⟩
  | commit t =>
      right
      rw [apply]
      rcases commit_cases r t with ⟨-, hrun⟩ | ⟨hactive, hrun⟩
      · rw [hrun]
        exact .inl ⟨rfl, rfl⟩
      · rw [hrun]
        by_cases htxn : txn = t
        · subst htxn
          right
          refine ⟨.inl rfl, hactive, ?_⟩
          rw [isActive, show (r.settle txn).begunAt? txn = _ from begunAt?_finish r txn txn,
            if_pos rfl]
          rfl
        · left
          exact ⟨(state?_settle r t txn).trans (if_neg htxn),
            (ByTxn.lookup_forget ..).trans (if_neg htxn)⟩
  | abort t =>
      right
      rw [apply]
      rcases abort_cases r t with ⟨-, hrun⟩ | ⟨hactive, hrun⟩
      · rw [hrun]
        exact .inl ⟨rfl, rfl⟩
      · rw [hrun]
        by_cases htxn : txn = t
        · subst htxn
          right
          refine ⟨.inr rfl, hactive, ?_⟩
          rw [isActive, begunAt?_finish, if_pos rfl]
          rfl
        · left
          exact ⟨state?_congr ((begunAt?_finish r t txn).trans (if_neg htxn)) rfl Iff.rfl,
            (ByTxn.lookup_forget ..).trans (if_neg htxn)⟩
  | setLevel t level =>
      right
      left
      refine ⟨rfl, ?_⟩
      rw [apply, setLevel, ByTxn.lookup_record]
      by_cases ht : txn = t
      · simp [Op.levelFor?, ht]
      · simp [Op.levelFor?, ht, Ne.symm ht]
  | setGlobalLevel level => exact .inr (.inl ⟨rfl, rfl⟩)
  | close => exact .inr (.inl ⟨rfl, rfl⟩)
  | reopen => exact .inr (.inl ⟨rfl, rfl⟩)

private theorem globalLevel_apply (r : Registry) (op : Op) :
    (r.apply op).globalLevel = op.global?.getD r.globalLevel := by
  cases op with
  | begin =>
      rcases begin_cases r with hrun | hrun
      · rw [apply, hrun]
        rfl
      · rw [apply, hrun]
        rfl
  | beginAt level =>
      rcases beginAt_cases r level with hrun | hrun
      · rw [apply, hrun]
        rfl
      · rw [apply, hrun]
        rfl
  | commit txn =>
      rcases commit_cases r txn with ⟨-, hrun⟩ | ⟨-, hrun⟩
      · rw [apply, hrun]
        rfl
      · rw [apply, hrun]
        rfl
  | abort txn =>
      rcases abort_cases r txn with ⟨-, hrun⟩ | ⟨-, hrun⟩
      · rw [apply, hrun]
        rfl
      · rw [apply, hrun]
        rfl
  | setLevel txn level => rfl
  | setGlobalLevel level => rfl
  | close => rfl
  | reopen => rfl

private theorem globalLevel_run (ops : List Op) : (run ops).globalLevel = lastGlobal ops := by
  induction ops using List.reverseRecOn with
  | nil => rfl
  | append_singleton ops op ih => rw [run_append, globalLevel_apply, lastGlobal_append, ih]

private theorem lookup_unissued {ops : List Op} {txn : Int} (h : (run ops).state? txn = none) :
    (run ops).overrides.lookup txn = lastLevel txn ops := by
  induction ops using List.reverseRecOn with
  | nil => rfl
  | append_singleton ops op ih =>
      rw [run_append] at h ⊢
      have hstate : (run ops).state? txn = none := by
        by_contra hissued
        obtain ⟨s, hs⟩ :=
          (Advances.apply (run_sound ops) op).issued (Option.ne_none_iff_exists'.mp hissued)
        rw [h] at hs
        cases hs
      rcases apply_cases (run ops) op txn with hbegins | ⟨-, hlookup⟩ | ⟨-, hactive, -⟩
      · rw [(hbegins.apply (run_sound ops)).2.1] at h
        cases h
      · rw [hlookup, ih hstate, lastLevel_append]
      · obtain ⟨n, hn⟩ := isActive_iff.mp hactive
        rw [hstate] at hn
        cases hn

theorem exists_begins {ops : List Op} {txn : Int} (h : (run ops).isActive txn = true) :
    ∃ before start after, ops = before ++ start :: after ∧ Begins (run before) txn start := by
  induction ops using List.reverseRecOn with
  | nil => simp [run, isActive, begunAt?] at h
  | append_singleton ops op ih =>
      rw [run_append] at h
      rcases apply_cases (run ops) op txn with hbegins | ⟨hstate, -⟩ | ⟨-, -, hended⟩
      · exact ⟨ops, op, [], rfl, hbegins⟩
      · rw [isActive_iff, hstate, ← isActive_iff] at h
        obtain ⟨before, start, after, rfl, hbegins⟩ := ih h
        exact ⟨before, start, after ++ [op], by simp, hbegins⟩
      · rw [h] at hended
        cases hended

/-- While a transaction is active, what is set for it is what was set last, before its begin, by it
or after it. -/
theorem lookup_active {before after : List Op} {start : Op} {txn : Int}
    (hbegins : Begins (run before) txn start)
    (h : (run (before ++ start :: after)).isActive txn = true) :
    (run (before ++ start :: after)).overrides.lookup txn =
      ((lastLevel txn after).or start.own?).or (lastLevel txn before) := by
  -- a number that is issued is not issued again, so nothing after `start` begins the transaction
  suffices hrun : (run (before ++ start :: after)).Issued txn ∧
      ((run (before ++ start :: after)).isActive txn = true →
        (run (before ++ start :: after)).overrides.lookup txn =
          ((lastLevel txn after).or start.own?).or (lastLevel txn before)) from hrun.2 h
  clear h
  induction after using List.reverseRecOn with
  | nil =>
      obtain ⟨hnone, hstate, hlookup⟩ := hbegins.apply (run_sound before)
      rw [run_append]
      refine ⟨⟨_, hstate⟩, fun _ => ?_⟩
      rw [hlookup, lookup_unissued hnone]
      rfl
  | append_singleton after op ih =>
      obtain ⟨hissued, hlevel⟩ := ih
      rw [← List.cons_append, ← List.append_assoc, run_append, lastLevel_append]
      refine ⟨(Advances.apply (run_sound _) op).issued hissued, fun hactive => ?_⟩
      rcases apply_cases (run (before ++ start :: after)) op txn with hagain | ⟨hstate, hlookup⟩ |
        ⟨-, -, hended⟩
      · obtain ⟨s, hs⟩ := hissued
        rw [(hagain.apply (run_sound _)).1] at hs
        cases hs
      · rw [isActive_iff, hstate, ← isActive_iff] at hactive
        rw [hlookup, hlevel hactive]
        simp only [Option.or_assoc]
      · rw [hactive] at hended
        cases hended

/-- A transaction that is active has begun, and its level is the last one that was set for it, were
it long before its begin, or else the global one of the moment. That is the level fixed by its begin
exactly when one was set by its begin or after it, or when the other way leads to the same. -/
theorem level_active {ops : List Op} {txn : Int} (h : (run ops).isActive txn = true) :
    (∃ before start after, ops = before ++ start :: after ∧ Begins (run before) txn start) ∧
      ∀ before start after, ops = before ++ start :: after → Begins (run before) txn start →
        (run ops).level txn =
          (((lastLevel txn after).or start.own?).or (lastLevel txn before)).getD (lastGlobal ops) ∧
        ((run ops).level txn = fixedLevel txn before start after ↔
          ((lastLevel txn after).or start.own?).isSome = true ∨
            (lastLevel txn before).getD (lastGlobal ops) = lastGlobal before) := by
  refine ⟨exists_begins h, ?_⟩
  rintro before start after rfl hbegins
  have hlevel : (run (before ++ start :: after)).level txn =
      (((lastLevel txn after).or start.own?).or (lastLevel txn before)).getD
        (lastGlobal (before ++ start :: after)) := by
    rw [level, lookup_active hbegins h, globalLevel_run]
  refine ⟨hlevel, ?_⟩
  rw [hlevel, fixedLevel]
  cases (lastLevel txn after).or start.own? with
  | none => simp
  | some l => simp

/-- The first transaction begins under the global level and goes on under another one. -/
theorem level_active_snapshot :
    ∃ (ops : List Op) (txn : Int), (run ops).isActive txn = true ∧
      (run ops).level txn = .snapshot ∧ fixedLevel txn [] .begin [.setGlobalLevel .snapshot] =
        .readCommitted ∧
      (∃ before start after, ops = before ++ start :: after ∧ Begins (run before) txn start) ∧
        ∀ before start after, ops = before ++ start :: after → Begins (run before) txn start →
          (run ops).level txn = (((lastLevel txn after).or start.own?).or
            (lastLevel txn before)).getD (lastGlobal ops) ∧
          ((run ops).level txn = fixedLevel txn before start after ↔
            ((lastLevel txn after).or start.own?).isSome = true ∨
              (lastLevel txn before).getD (lastGlobal ops) = lastGlobal before) :=
  ⟨[.begin, .setGlobalLevel .snapshot], 1, rfl, rfl, rfl, level_active rfl⟩

end TableIndex.Registry
