import TableIndex.Proofs.Txn.History

/-!
# The life of a transaction

A transaction is active from its begin to the first commit or abort of its number, and stays as it
ended. Numbers of transactions and numbers of the sequence are both handed out one by one. That a
transaction has aborted can be told from what is kept of the others: its number was handed out, and
it is neither active nor committed.
-/

namespace TableIndex.Registry

/-- The transaction and the sequence number that a begin gives. -/
def begun? (r : Registry) : Op → Option (Int × Int)
  | .begin => r.begin.1.toOption
  | .beginAt level => (r.beginAt level).1.toOption
  | _ => none

/-- The sequence number that a begin or a commit gives. -/
def drawn? (r : Registry) : Op → Option Int
  | .commit txn => (r.commit txn).1.toOption
  | op => (r.begun? op).map Prod.snd

/-- What the operations of a run give, in the order of the calls. -/
def gather {α : Type} (f : Registry → Op → Option α) : Registry → List Op → List α
  | _, [] => []
  | r, op :: ops => (f r op).toList ++ gather f (r.apply op) ops

/-- The numbers of transactions that a run hands out. -/
def issued (ops : List Op) : List Int := (gather begun? {} ops).map Prod.fst

/-- The sequence numbers that a run hands out. -/
def drawn (ops : List Op) : List Int := gather drawn? {} ops

/-- The numbers 1, …, `n`. -/
def numbers (n : Nat) : List Int := (List.range n).map fun i : Nat => (i : Int) + 1

private theorem gather_append {α : Type} (f : Registry → Op → Option α) (r : Registry)
    (ops : List Op) (op : Op) :
    gather f r (ops ++ [op]) = gather f r ops ++ (f (ops.foldl apply r) op).toList := by
  induction ops generalizing r with
  | nil => simp [gather]
  | cons first ops ih => simp [gather, ih]

@[simp] theorem length_numbers (n : Nat) : (numbers n).length = n := by simp [numbers]

private theorem numbers_succ (n : Nat) : numbers (n + 1) = numbers n ++ [(n : Int) + 1] := by
  simp [numbers, List.range_succ]

private theorem mem_numbers {n : Nat} {i : Int} : i ∈ numbers n ↔ 0 < i ∧ i ≤ n := by
  simp only [numbers, List.mem_map, List.mem_range]
  constructor
  · rintro ⟨k, hk, rfl⟩
    omega
  · rintro ⟨hpos, hle⟩
    exact ⟨(i - 1).toNat, by omega, by omega⟩

private theorem numbers_sorted (n : Nat) : (numbers n).Pairwise (· < ·) := by
  rw [numbers, List.pairwise_map]
  exact List.pairwise_lt_range.imp fun h => by omega

private theorem hands_out_cases (r : Registry) (op : Op) :
    (r.begun? op = none ∧ r.drawn? op = none ∧
      (r.apply op).lastTxn = r.lastTxn ∧ (r.apply op).sequence = r.sequence) ∨
    (r.begun? op = none ∧ r.drawn? op = some (r.sequence + 1) ∧
      (r.apply op).lastTxn = r.lastTxn ∧ (r.apply op).sequence = r.sequence + 1) ∨
    (r.begun? op = some (r.lastTxn + 1, r.sequence + 1) ∧ r.drawn? op = some (r.sequence + 1) ∧
      (r.apply op).lastTxn = r.lastTxn + 1 ∧ (r.apply op).sequence = r.sequence + 1) := by
  cases op with
  | begin =>
      simp only [drawn?, begun?, apply]
      rcases begin_cases r with hrun | hrun
      · exact .inl (by rw [hrun]; exact ⟨rfl, rfl, rfl, rfl⟩)
      · exact .inr (.inr (by rw [hrun]; exact ⟨rfl, rfl, rfl, rfl⟩))
  | beginAt level =>
      simp only [drawn?, begun?, apply]
      rcases beginAt_cases r level with hrun | hrun
      · exact .inl (by rw [hrun]; exact ⟨rfl, rfl, rfl, rfl⟩)
      · exact .inr (.inr (by rw [hrun]; exact ⟨rfl, rfl, rfl, rfl⟩))
  | commit txn =>
      rw [drawn?, apply]
      rcases commit_cases r txn with ⟨-, hrun⟩ | ⟨-, hrun⟩
      · exact .inl (by rw [hrun]; exact ⟨rfl, rfl, rfl, rfl⟩)
      · exact .inr (.inl (by rw [hrun]; exact ⟨rfl, rfl, rfl, rfl⟩))
  | abort txn =>
      rw [apply]
      rcases abort_cases r txn with ⟨-, hrun⟩ | ⟨-, hrun⟩
      · exact .inl (by rw [hrun]; exact ⟨rfl, rfl, rfl, rfl⟩)
      · exact .inl (by rw [hrun]; exact ⟨rfl, rfl, rfl, rfl⟩)
  | setLevel txn level => exact .inl ⟨rfl, rfl, rfl, rfl⟩
  | setGlobalLevel level => exact .inl ⟨rfl, rfl, rfl, rfl⟩
  | close => exact .inl ⟨rfl, rfl, rfl, rfl⟩
  | reopen => exact .inl ⟨rfl, rfl, rfl, rfl⟩

private theorem issued_append (ops : List Op) (op : Op) :
    issued (ops ++ [op]) = issued ops ++ (((run ops).begun? op).map Prod.fst).toList := by
  rw [issued, gather_append, List.map_append]
  cases h : (ops.foldl apply {}).begun? op <;> simp [issued, run, h]

private theorem drawn_append (ops : List Op) (op : Op) :
    drawn (ops ++ [op]) = drawn ops ++ ((run ops).drawn? op).toList :=
  gather_append drawn? {} ops op

private theorem counted (ops : List Op) :
    (∃ n : Nat, (run ops).lastTxn = n ∧ issued ops = numbers n) ∧
      ∃ n : Nat, (run ops).sequence = n ∧ drawn ops = numbers n := by
  induction ops using List.reverseRecOn with
  | nil => exact ⟨⟨0, rfl, rfl⟩, ⟨0, rfl, rfl⟩⟩
  | append_singleton ops op ih =>
      obtain ⟨⟨m, hm, hissued⟩, ⟨n, hn, hdrawn⟩⟩ := ih
      rw [issued_append, drawn_append, run_append, hissued, hdrawn]
      rcases hands_out_cases (run ops) op with
        ⟨hb, hd, hlast, hsequence⟩ | ⟨hb, hd, hlast, hsequence⟩ | ⟨hb, hd, hlast, hsequence⟩
      · rw [hb, hd, hlast, hsequence]
        exact ⟨⟨m, hm, by simp⟩, ⟨n, hn, by simp⟩⟩
      · rw [hb, hd, hlast, hsequence, hn]
        exact ⟨⟨m, hm, by simp⟩, ⟨n + 1, by simp, (numbers_succ n).symm⟩⟩
      · rw [hb, hd, hlast, hsequence, hm, hn]
        exact ⟨⟨m + 1, by simp, (numbers_succ m).symm⟩, ⟨n + 1, by simp, (numbers_succ n).symm⟩⟩

private theorem issued_eq (ops : List Op) : issued ops = numbers (issued ops).length := by
  obtain ⟨⟨n, -, hissued⟩, -⟩ := counted ops
  rw [hissued, length_numbers]

private theorem lastTxn_eq (ops : List Op) : (run ops).lastTxn = (issued ops).length := by
  obtain ⟨⟨n, hn, hissued⟩, -⟩ := counted ops
  rw [hissued, length_numbers, hn]

private theorem mem_issued {ops : List Op} {txn : Int} : txn ∈ issued ops ↔
    (run ops).Issued txn := by
  rw [issued_eq, mem_numbers, issued_iff (run_sound ops), lastTxn_eq]

private theorem issued_iff_begins {ops : List Op} {txn : Int} :
    (run ops).Issued txn ↔
      ∃ before start after, ops = before ++ start :: after ∧ Begins (run before) txn start := by
  constructor
  · intro h
    induction ops using List.reverseRecOn with
    | nil =>
        have := (issued_iff (run_sound [])).mp h
        have hlast : (run []).lastTxn = 0 := rfl
        omega
    | append_singleton ops op ih =>
        by_cases hissued : (run ops).Issued txn
        · obtain ⟨before, start, after, rfl, hbegins⟩ := ih hissued
          exact ⟨before, start, after ++ [op], by simp, hbegins⟩
        · refine ⟨ops, op, [], rfl, ?_⟩
          rw [run_append] at h
          rcases apply_cases (run ops) op txn with hbegins | ⟨hstate, -⟩ | ⟨-, hactive, -⟩
          · exact hbegins
          · obtain ⟨s, hs⟩ := h
            exact absurd ⟨s, hstate ▸ hs⟩ hissued
          · obtain ⟨n, hn⟩ := isActive_iff.mp hactive
            exact absurd ⟨_, hn⟩ hissued
  · rintro ⟨before, start, after, rfl, hbegins⟩
    rw [List.append_cons]
    refine (advances_run (before ++ [start]) after).issued ?_
    rw [run_append]
    exact ⟨_, (hbegins.apply (run_sound before)).2.1⟩

inductive Phase
  | active
  | committed
  | aborted
  deriving DecidableEq

/-- The registry reports a transaction to be in the phase, and in no other one. -/
def Reports (r : Registry) (txn : Int) (phase : Phase) : Prop :=
  r.isActive txn = decide (phase = .active) ∧ r.isCommitted txn = decide (phase = .committed) ∧
    r.isAborted txn = decide (phase = .aborted)

/-- What an operation makes of a transaction: an active one is ended by the commit or the abort of
its number, and nothing else has an effect. -/
def Op.moves (txn : Int) : Op → Phase → Phase
  | .commit t, .active => if t = txn then .committed else .active
  | .abort t, .active => if t = txn then .aborted else .active
  | _, phase => phase

private def phaseOf : TxnState → Phase
  | .active _ => .active
  | .committed _ => .committed
  | .aborted => .aborted

private theorem reports_of_state? {r : Registry} (hr : r.Sound) {txn : Int} {s : TxnState}
    (h : r.state? txn = some s) : r.Reports txn (phaseOf s) := by
  have hissued : r.Issued txn := ⟨s, h⟩
  have hactive : r.isActive txn = decide (phaseOf s = .active) := by
    rw [Bool.eq_iff_iff, isActive_iff, h]
    cases s <;> simp [phaseOf]
  have hcommitted : r.isCommitted txn = decide (phaseOf s = .committed) := by
    rw [Bool.eq_iff_iff, isCommitted_iff hr hissued, h]
    cases s <;> simp [phaseOf]
  have haborted : r.isAborted txn = decide (phaseOf s = .aborted) := by
    rw [Bool.eq_iff_iff, isAborted_iff, h]
    cases s <;> simp [phaseOf]
  exact ⟨hactive, hcommitted, haborted⟩

private theorem Reports.unique {r : Registry} {txn : Int} {p q : Phase} (hp : r.Reports txn p)
    (hq : r.Reports txn q) : p = q := by
  obtain ⟨hactive, hcommitted, -⟩ := hp
  obtain ⟨hactive', hcommitted', -⟩ := hq
  rw [hactive] at hactive'
  rw [hcommitted] at hcommitted'
  cases p <;> cases q <;> simp_all

private theorem unissued {r : Registry} (hr : r.Sound) {txn : Int} (h : ¬ r.Issued txn) :
    r.isActive txn = false ∧ r.isAborted txn = false ∧
      (r.isCommitted txn = true ↔ txn = bootstrap) := by
  have hnone : r.committedAt? txn = none := by
    rw [Option.eq_none_iff_forall_ne_some]
    exact fun s hs => h ⟨_, (committedAt?_eq hr).mp hs⟩
  refine ⟨?_, ?_, by simp [isCommitted, hnone]⟩
  · rw [Bool.eq_false_iff, ne_eq, isActive_iff]
    rintro ⟨s, hs⟩
    exact h ⟨_, hs⟩
  · rw [Bool.eq_false_iff, ne_eq, isAborted_iff]
    exact fun hs => h ⟨_, hs⟩

private theorem not_issued_bootstrap {r : Registry} (hr : r.Sound) : ¬ r.Issued bootstrap :=
  fun h => h.ne_bootstrap hr rfl

private theorem reports_bootstrap {r : Registry} (hr : r.Sound) :
    r.Reports bootstrap .committed := by
  obtain ⟨hactive, haborted, hcommitted⟩ := unissued hr (not_issued_bootstrap hr)
  exact ⟨hactive, hcommitted.mpr rfl, haborted⟩

private theorem Reports.issued_or_bootstrap {r : Registry} (hr : r.Sound) {txn : Int} {p : Phase}
    (h : r.Reports txn p) : r.Issued txn ∨ txn = bootstrap ∧ p = .committed := by
  by_cases hissued : r.Issued txn
  · exact .inl hissued
  right
  obtain ⟨hnone, haborted, hboot⟩ := unissued hr hissued
  cases p with
  | active => exact absurd h.1 (by simp [hnone])
  | committed => exact ⟨hboot.mp h.2.1, rfl⟩
  | aborted => exact absurd h.2.2 (by simp [haborted])

private theorem reports_apply {r : Registry} (hr : r.Sound) {txn : Int} {p : Phase}
    (h : r.Reports txn p) (op : Op) : (r.apply op).Reports txn (op.moves txn p) := by
  have hr' := hr.apply op
  rcases h.issued_or_bootstrap hr with ⟨s, hs⟩ | ⟨rfl, rfl⟩
  · obtain rfl := h.unique (reports_of_state? hr hs)
    have hadvances := Advances.apply hr op
    cases s with
    | committed n =>
        have hkept := reports_of_state? hr' (hadvances.committed hs)
        cases op <;> exact hkept
    | aborted =>
        have hkept := reports_of_state? hr' (hadvances.aborted hs)
        cases op <;> exact hkept
    | active n =>
        have hactive := isActive_iff.mpr ⟨n, hs⟩
        by_cases hcommit : op = .commit txn
        · subst hcommit
          simpa [apply, Op.moves, phaseOf] using reports_of_state? hr' (state?_commit hactive)
        by_cases habort : op = .abort txn
        · subst habort
          simpa [apply, Op.moves, phaseOf] using reports_of_state? hr' (state?_abort hr hactive)
        have hmoves : op.moves txn .active = .active := by
          cases op <;> simp_all [Op.moves]
        rcases apply_cases r op txn with hbegins | ⟨hstate, -⟩ | ⟨rfl | rfl, -, -⟩
        · rw [(hbegins.apply hr).1] at hs
          cases hs
        · exact hmoves.symm ▸ reports_of_state? hr' (hstate.trans hs)
        · exact absurd rfl hcommit
        · exact absurd rfl habort
  · cases op <;> exact reports_bootstrap hr'

private theorem reports_run {before : List Op} {txn : Int} {p : Phase}
    (h : (run before).Reports txn p) (after : List Op) :
    (run (before ++ after)).Reports txn (after.foldl (fun phase op => op.moves txn phase) p) := by
  induction after using List.reverseRecOn with
  | nil =>
      rw [List.append_nil]
      exact h
  | append_singleton after op ih =>
      rw [← List.append_assoc, run_append, List.foldl_concat]
      exact reports_apply (run_sound _) ih op

private theorem foldl_moves_ended (txn : Int) {p : Phase} (h : p ≠ .active) (ops : List Op) :
    ops.foldl (fun phase op => op.moves txn phase) p = p := by
  induction ops with
  | nil => rfl
  | cons op ops ih =>
      have hmoves : op.moves txn p = p := by
        cases p with
        | active => exact absurd rfl h
        | committed => cases op <;> rfl
        | aborted => cases op <;> rfl
      rw [List.foldl_cons, hmoves, ih]

/-- The call is answered with a result, or cannot fail. -/
def accepts (r : Registry) : Op → Bool
  | .begin => r.begin.1.isOk
  | .beginAt level => (r.beginAt level).1.isOk
  | .commit txn => (r.commit txn).1.isOk
  | .abort txn => (r.abort txn).1.isOk
  | _ => true

private theorem apply_refused {r : Registry} {op : Op} (h : r.accepts op = false) :
    r.apply op = r := by
  cases op with
  | begin =>
      rw [accepts] at h
      rcases begin_cases r with hrun | hrun
      · rw [apply, hrun]
      · rw [hrun] at h
        cases h
  | beginAt level =>
      rw [accepts] at h
      rcases beginAt_cases r level with hrun | hrun
      · rw [apply, hrun]
      · rw [hrun] at h
        cases h
  | commit txn =>
      rw [accepts] at h
      rcases commit_cases r txn with ⟨-, hrun⟩ | ⟨-, hrun⟩
      · rw [apply, hrun]
      · rw [hrun] at h
        cases h
  | abort txn =>
      rw [accepts] at h
      rcases abort_cases r txn with ⟨-, hrun⟩ | ⟨-, hrun⟩
      · rw [apply, hrun]
      · rw [hrun] at h
        cases h
  | setLevel txn level => cases h
  | setGlobalLevel level => cases h
  | close => cases h
  | reopen => cases h

/-- Numbers and phases of the transactions after a run. -/
structure LifeCycle (ops : List Op) : Prop where
  numbered : issued ops = numbers (issued ops).length
  increasing : (drawn ops).Pairwise (· < ·)
  begun : ∀ txn, txn ∈ issued ops ↔
    ∃ before start after, ops = before ++ start :: after ∧ Begins (run before) txn start
  one_phase : ∀ txn ∈ issued ops, ∃! phase, (run ops).Reports txn phase
  history : ∀ txn before start after, ops = before ++ start :: after →
    Begins (run before) txn start →
    (run ops).Reports txn (after.foldl (fun phase op => op.moves txn phase) .active)
  moves : ∀ txn phase op, (run ops).Reports txn phase →
    (run (ops ++ [op])).Reports txn (op.moves txn phase)
  permanent : ∀ txn phase later, phase ≠ .active → (run ops).Reports txn phase →
    (run (ops ++ later)).Reports txn phase
  unissued : ∀ txn ∉ issued ops, (run ops).isActive txn = false ∧ (run ops).isAborted txn = false ∧
    ((run ops).isCommitted txn = true ↔ txn = bootstrap)
  bootstrap : bootstrap ∉ issued ops ∧ (run ops).isCommitted bootstrap = true
  aborted : ∀ txn, (run ops).isAborted txn = true ↔ (0 < txn ∧ txn ≤ (issued ops).length) ∧
    (run ops).isActive txn = false ∧ (run ops).isCommitted txn = false
  refused : ∀ op, (run ops).accepts op = false → (run ops).apply op = run ops

theorem life_cycle (ops : List Op) : LifeCycle ops where
  numbered := issued_eq ops
  increasing := by
    obtain ⟨-, n, -, hdrawn⟩ := counted ops
    rw [hdrawn]
    exact numbers_sorted n
  begun txn := mem_issued.trans issued_iff_begins
  one_phase := by
    intro txn h
    obtain ⟨s, hs⟩ := mem_issued.mp h
    have hreports := reports_of_state? (run_sound ops) hs
    exact ⟨_, hreports, fun phase hphase => hphase.unique hreports⟩
  history := by
    rintro txn before start after rfl hbegins
    have hstart : (run (before ++ [start])).Reports txn .active := by
      rw [run_append]
      exact reports_of_state? ((run_sound before).apply start)
        (hbegins.apply (run_sound before)).2.1
    rw [List.append_cons]
    exact reports_run hstart after
  moves := by
    intro txn phase op h
    rw [run_append]
    exact reports_apply (run_sound ops) h op
  permanent := by
    intro txn phase later hended h
    have hrun := reports_run h later
    rwa [foldl_moves_ended txn hended later] at hrun
  unissued txn h := Registry.unissued (run_sound ops) (mt mem_issued.mpr h)
  bootstrap := ⟨fun h => not_issued_bootstrap (run_sound ops) (mem_issued.mp h), rfl⟩
  aborted := by
    intro txn
    rw [isAborted, lastTxn_eq]
    simp [and_assoc]
  refused _ := apply_refused

end TableIndex.Registry
