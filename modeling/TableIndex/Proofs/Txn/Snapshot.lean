import TableIndex.Proofs.Index.Search
import TableIndex.Proofs.Txn.Level
import TableIndex.Proofs.Txn.Uniqueness

/-!
# Snapshots that others do not disturb

A snapshot holds the commits up to the begin of its transaction. A later commit draws a later
number, a mark of deletion takes the place only of one that was not seen, and what a transaction
writes is not seen while it is active. So no call of another transaction, on the registry, on the
versions or on the index, changes what a scan under the snapshot reads.
-/

namespace TableIndex

namespace Registry

/-- The viewer holds the snapshot of a transaction that is active. -/
structure Holds (r : Registry) (viewer : Viewer) : Prop where
  sound : r.Sound
  isolation : viewer.isolation = .snapshot
  active : r.state? viewer.txn = some (.active viewer.snapshot)
  snapshot_le : viewer.snapshot ≤ r.sequence

private theorem not_isCommitted_of_isActive {r : Registry} (hr : r.Sound) {txn : Int}
    (h : r.isActive txn = true) : r.isCommitted txn = false := by
  obtain ⟨n, hn⟩ := isActive_iff.mp h
  rw [Bool.eq_false_iff, ne_eq, isCommitted_iff hr ⟨_, hn⟩, hn]
  rintro ⟨m, hm⟩
  cases hm

private theorem begun_le_apply {r : Registry} (hr : r.Sound)
    (h : ∀ u n, r.state? u = some (.active n) → n ≤ r.sequence) (op : Op) {u n : Int}
    (hu : (r.apply op).state? u = some (.active n)) :
    n ≤ (r.apply op).sequence := by
  rcases apply_cases r op u with hbegins | ⟨hstate, -⟩ | ⟨-, -, hended⟩
  · rw [(hbegins.apply hr).2.1] at hu
    cases hu
    exact le_refl _
  · rw [hstate] at hu
    exact (h u n hu).trans (Advances.apply hr op).sequence_le
  · rw [isActive_iff.mpr ⟨n, hu⟩] at hended
    cases hended

theorem Advances.stays_active {r r' : Registry} (h : r.Advances r') {txn n : Int}
    (hn : r.state? txn = some (.active n)) (hactive : r'.isActive txn = true) :
    r'.state? txn = some (.active n) := by
  obtain ⟨m, hm⟩ := isActive_iff.mp hactive
  rcases h.active hn with hn' | hn' | ⟨k, -, hn'⟩
  · exact hn'
  · rw [hm] at hn'
    cases hn'
  · rw [hm] at hn'
    cases hn'

variable {r : Registry} {viewer : Viewer}

private theorem Holds.apply (h : r.Holds viewer) {op : Op} (hc : op ≠ .commit viewer.txn)
    (ha : op ≠ .abort viewer.txn) : (r.apply op).Holds viewer := by
  refine ⟨h.sound.apply op, h.isolation, ?_,
    h.snapshot_le.trans (Advances.apply h.sound op).sequence_le⟩
  rcases apply_cases r op viewer.txn with hbegins | ⟨hstate, -⟩ | ⟨hend | hend, -⟩
  · have hnone := (hbegins.apply h.sound).1
    rw [h.active] at hnone
    cases hnone
  · exact hstate.trans h.active
  · exact absurd hend hc
  · exact absurd hend ha

private theorem Holds.not_sees (h : r.Holds viewer) {writer : Int} (hne : writer ≠ viewer.txn)
    (hc : r.isCommitted writer = false) : r.sees viewer writer = false := by
  obtain ⟨hbootstrap, hnone⟩ := Bool.or_eq_false_iff.mp hc
  rw [Option.isSome_eq_false_iff, Option.isNone_iff_eq_none] at hnone
  simp [sees, hne, h.isolation, committedBy, hbootstrap, hnone]

theorem Holds.sees_apply (h : r.Holds viewer) (op : Op) (writer : Int) :
    (r.apply op).sees viewer writer = r.sees viewer writer := by
  have hr := Advances.apply h.sound op
  have hsame : ∀ n ≤ viewer.snapshot, (r.apply op).state? writer = some (.committed n) ↔
      r.state? writer = some (.committed n) := by
    refine fun n hn => ⟨fun hw => ?_, hr.committed⟩
    rcases apply_cases r op writer with hbegins | ⟨hstate, -⟩ | ⟨-, hactive, -⟩
    · rw [(hbegins.apply h.sound).2.1] at hw
      cases hw
    · rwa [hstate] at hw
    · obtain ⟨m, hm⟩ := isActive_iff.mp hactive
      rcases hr.active hm with hw' | hw' | ⟨k, hlt, hw'⟩ <;> rw [hw] at hw'
      · cases hw'
      · cases hw'
      · -- the commit is later than the begin of the viewing transaction
        cases hw'
        exact absurd hn (not_le.mpr (h.snapshot_le.trans_lt hlt))
  have hany : ((r.apply op).committedAt? writer).any (· ≤ viewer.snapshot) =
      (r.committedAt? writer).any (· ≤ viewer.snapshot) := by
    rw [Bool.eq_iff_iff]
    simp only [Option.any_eq_true, committedAt?_eq h.sound, committedAt?_eq (h.sound.apply op),
      decide_eq_true_eq]
    exact exists_congr fun n => and_congr_left fun hn => hsame n hn
  simp only [sees, h.isolation, committedBy, hany]

end Registry

namespace Versions

variable {r : Registry} {viewer : Viewer}

private theorem visible_apply (h : r.Holds viewer) (s : Versions) (op : Registry.Op)
    (ref : VersionRef) :
    (s.source (r.apply op)).visible viewer ref = (s.source r).visible viewer ref := by
  have hsees : (r.apply op).sees viewer = r.sees viewer := funext (h.sees_apply op)
  have hvisible : versionVisible (r.apply op) viewer = versionVisible r viewer := by
    funext v
    rw [versionVisible, versionVisible, deletionSeen, deletionSeen, hsees]
  simp only [source, hvisible]

private theorem not_visible_of_active (h : r.Holds viewer) {v : Version}
    (hne : v.createdBy ≠ viewer.txn) (hactive : r.isActive v.createdBy = true) :
    versionVisible r viewer v = false := by
  rw [versionVisible, h.not_sees hne (Registry.not_isCommitted_of_isActive h.sound hactive),
    Bool.false_and]

private theorem versionVisible_marked (h : r.Holds viewer) {v : Version} {txn : Int}
    (hne : txn ≠ viewer.txn) (hactive : r.isActive txn = true) (hmark : isMarked r v txn = false) :
    versionVisible r viewer { v with deletedBy := some txn } = versionVisible r viewer v := by
  have hnew : r.sees viewer txn = false :=
    h.not_sees hne (Registry.not_isCommitted_of_isActive h.sound hactive)
  have hold : deletionSeen r viewer v = false := by
    cases hd : v.deletedBy with
    | none => rw [deletionSeen, hd, Option.any_none]
    | some d =>
        rw [isMarked, hd, Option.any_some, Bool.or_eq_false_iff, Bool.or_eq_false_iff] at hmark
        -- the viewing transaction is active, so its own mark would count
        have hd' : d ≠ viewer.txn := by
          rintro rfl
          rw [Registry.isActive_iff.mpr ⟨_, h.active⟩] at hmark
          cases hmark.1.2
        rw [deletionSeen, hd, Option.any_some, h.not_sees hd' hmark.2]
  rw [versionVisible, versionVisible, hold, deletionSeen, Option.any_some, hnew]

end Versions

namespace Table

/-- A call on a table. A row may be put into the index for any writer, or for none. -/
inductive Call
  | operate (op : Op)
  | put (writer : Option Viewer) (ref : VersionRef) (grants : Allocator := .addressable)

/-- The table after one call, failed or not. The store hands out no number of a version that is not
stored, so no such row is put into the index. -/
def call (t : Table) : Call → Checked Table
  | .operate op => t.apply op
  | .put writer ref grants =>
      match t.versions.get? ref with
      | none => .ok t
      | some _ => do return { t with index := (← t.index.insert t.source writer ref grants).2 }

/-- A table that calls on an empty one have built. -/
inductive Formed (config : Index.Config) : Table → Prop
  | start {columns : Option Nat} {index : Index VersionRef} :
      Index.create config columns = .ok index →
      Formed config { registry := {}, versions := { columns }, index }
  | step {t t' : Table} {c : Call} : Formed config t → t.call c = .ok t' → Formed config t'

/-- The call does not act for the transaction. It drops no row from the index, and one that it puts
in is of another transaction that is still active. -/
def Foreign (txn : Int) (t : Table) : Call → Prop
  | .operate (.transact op) => op ≠ .commit txn ∧ op ≠ .abort txn
  | .operate (.append writer _ _) => writer ≠ txn
  | .operate (.mark deleter _) => deleter ≠ txn
  | .operate (.enter _ ref _) | .put _ ref _ => ∀ v, t.versions.get? ref = some v →
      v.createdBy ≠ txn ∧ t.registry.isActive v.createdBy = true
  | .operate (.drop _) | .operate .clear => False

/-- Only others than the transaction act from `t` to `t'`. -/
inductive Passes (txn : Int) (t : Table) : Table → Prop
  | refl : Passes txn t t
  | step {t' t'' : Table} {c : Call} :
      Passes txn t t' → t'.Foreign txn c → t'.call c = .ok t'' → Passes txn t t''

/-- What holds of a table whose index holds these rows. -/
structure Consistent (config : Index.Config) (t : Table) (rows : List VersionRef) : Prop where
  config_eq : t.index.config = config
  lists : t.index.Lists t.source rows
  registry : t.registry.Sound
  stored : ∀ r ∈ rows, ∃ v, t.versions.get? r = some v
  begun : ∀ u n, t.registry.state? u = some (.active n) → n ≤ t.registry.sequence

/-- Under the snapshot, the same rows are seen in both tables and in the same order. -/
structure Undisturbed (viewer : Viewer) (t : Table) (rows : List VersionRef) (t' : Table)
    (rows' : List VersionRef) : Prop where
  holds : t'.registry.Holds viewer
  seen : rows'.filter (t'.source.visible viewer) = rows.filter (t.source.visible viewer)
  project : ∀ r ∈ rows, t.source.visible viewer r = true → t'.source.project r = t.source.project r

private theorem Undisturbed.refl {viewer : Viewer} {t : Table} (h : t.registry.Holds viewer)
    (rows : List VersionRef) : Undisturbed viewer t rows t rows :=
  ⟨h, rfl, fun _ _ _ => rfl⟩

private theorem Undisturbed.trans {viewer : Viewer} {t t' t'' : Table}
    {rows rows' rows'' : List VersionRef} (h : Undisturbed viewer t rows t' rows')
    (h' : Undisturbed viewer t' rows' t'' rows'') :
    Undisturbed viewer t rows t'' rows'' := by
  refine ⟨h'.holds, h'.seen.trans h.seen, fun r hr hv => ?_⟩
  have hseen : r ∈ rows'.filter (t'.source.visible viewer) := by
    rw [h.seen]
    exact List.mem_filter.mpr ⟨hr, hv⟩
  obtain ⟨hr', hv'⟩ := List.mem_filter.mp hseen
  exact (h'.project r hr' hv').trans (h.project r hr hv)

variable {config : Index.Config} {t : Table} {rows : List VersionRef} {viewer : Viewer}

private theorem Consistent.transact (h : t.Consistent config rows) (op : Registry.Op) :
    Consistent config { t with registry := t.registry.apply op } rows where
  config_eq := h.config_eq
  lists := h.lists.congr_source fun _ _ => ⟨rfl, rfl, rfl⟩
  registry := h.registry.apply op
  stored := h.stored
  begun := fun _ _ hu => Registry.begun_le_apply h.registry h.begun op hu

private theorem Consistent.keeps (h : t.Consistent config rows) {versions : Versions}
    (hkeeps : Keeps t.registry t.versions versions) :
    Consistent config { t with versions } rows := by
  obtain ⟨hlists, hstored⟩ := hkeeps.lists h.lists h.stored
  exact ⟨h.config_eq, hlists, h.registry, hstored, h.begun⟩

private theorem Consistent.undisturbed_keeps (h : t.Consistent config rows) {versions : Versions}
    (hkeeps : Keeps t.registry t.versions versions) (hholds : t.registry.Holds viewer)
    (hvisible : ∀ r ∈ rows,
      (versions.source t.registry).visible viewer r = t.source.visible viewer r) :
    Undisturbed viewer t rows { t with versions } rows := by
  refine ⟨hholds, List.filter_congr hvisible, fun r hr _ => ?_⟩
  obtain ⟨v, hv⟩ := h.stored r hr
  exact (hkeeps.agrees hv).1

private theorem Consistent.sublist (h : t.Consistent config rows) {index : Index VersionRef}
    {rows' : List VersionRef} (hconfig : index.config = t.index.config)
    (hlists : index.Lists t.source rows') (hsub : ∀ r ∈ rows', r ∈ rows) :
    Consistent config { t with index } rows' :=
  ⟨hconfig.trans h.config_eq, hlists, h.registry, fun r hr => h.stored r (hsub r hr), h.begun⟩

private theorem Consistent.put (h : t.Consistent config rows) (writer : Option Viewer)
    {ref : VersionRef} {v : Version} (hv : t.versions.get? ref = some v) (grants : Allocator) :
    ∃ answer index rows', t.index.insert t.source writer ref grants = .ok (answer, index) ∧
      Consistent config { t with index } rows' ∧
      ∀ viewer, t.registry.Holds viewer → t.source.visible viewer ref = false →
        Undisturbed viewer t rows { t with index } rows' := by
  rcases Index.insert_cases h.lists writer ref grants with ⟨-, hrun⟩ | ⟨-, ⟨-, hrun⟩ |
    ⟨-, ⟨_, _, -, hrun⟩ | ⟨tree, before, after, hrun, rfl, hlists⟩⟩⟩
  · exact ⟨_, t.index, rows, hrun, h, fun _ hholds _ => .refl hholds rows⟩
  · exact ⟨_, t.index, rows, hrun, h, fun _ hholds _ => .refl hholds rows⟩
  · exact ⟨_, t.index, rows, hrun, h, fun _ hholds _ => .refl hholds rows⟩
  · refine ⟨_, _, before ++ ref :: after, hrun, ⟨h.config_eq, hlists, h.registry, ?_, h.begun⟩, ?_⟩
    · intro r hr
      by_cases hr' : r = ref
      · exact ⟨v, hr' ▸ hv⟩
      · exact h.stored r (by simpa [hr'] using hr)
    · intro viewer hholds hhidden
      refine ⟨hholds, ?_, fun _ _ _ => rfl⟩
      have hfilter : (ref :: after).filter (t.source.visible viewer) =
          after.filter (t.source.visible viewer) :=
        List.filter_cons_of_neg (by rw [hhidden]; exact Bool.false_ne_true)
      rw [List.filter_append, List.filter_append]
      exact congrArg _ hfilter

/-- Every call meets no fault, and what is seen under a snapshot changes only by calls that act for
its transaction. -/
theorem Consistent.call (h : t.Consistent config rows) (c : Call) :
    ∃ t' rows', t.call c = .ok t' ∧ t'.Consistent config rows' ∧
      ∀ viewer, t.registry.Holds viewer → t.Foreign viewer.txn c →
        Undisturbed viewer t rows t' rows' := by
  have hhidden : ∀ {viewer : Viewer} {ref : VersionRef} {v : Version}, t.registry.Holds viewer →
      t.versions.get? ref = some v →
      v.createdBy ≠ viewer.txn ∧ t.registry.isActive v.createdBy = true →
      t.source.visible viewer ref = false := by
    intro viewer ref v hholds hv hforeign
    simp only [source, Versions.source, hv, Option.any_some]
    exact Versions.not_visible_of_active hholds hforeign.1 hforeign.2
  cases c with
  | put writer ref grants =>
      cases hv : t.versions.get? ref with
      | none =>
          exact ⟨t, rows, by simp only [Table.call, hv], h, fun _ hholds _ => .refl hholds rows⟩
      | some v =>
          obtain ⟨answer, index, rows', hrun, h', hseen⟩ := h.put writer hv grants
          refine ⟨{ t with index }, rows', ?_, h', fun viewer hholds hforeign => ?_⟩
          · simp only [Table.call, hv, hrun, ok_bind, pure_eq_ok]
          · exact hseen viewer hholds (hhidden hholds hv (hforeign v hv))
  | operate op =>
      cases op with
      | transact op =>
          refine ⟨_, rows, rfl, h.transact op, fun viewer hholds hforeign => ?_⟩
          refine ⟨hholds.apply hforeign.1 hforeign.2, ?_, fun _ _ _ => rfl⟩
          exact List.filter_congr fun r _ => Versions.visible_apply hholds t.versions op r
      | append txn rowId row =>
          have hkeeps := insert_keeps t.registry t.versions txn rowId row
          refine ⟨_, rows, rfl, h.keeps hkeeps, fun viewer hholds _ => ?_⟩
          refine h.undisturbed_keeps hkeeps hholds fun r hr => ?_
          obtain ⟨v, hv⟩ := h.stored r hr
          simp only [source, Versions.source, hv, insert_get? hv]
      | mark txn ref =>
          have hkeeps := delete_keeps t.registry t.versions txn ref
          refine ⟨_, rows, rfl, h.keeps hkeeps, fun viewer hholds hforeign => ?_⟩
          refine h.undisturbed_keeps hkeeps hholds fun r hr => ?_
          rcases delete_cases t.registry t.versions txn ref with ⟨answer, -, hsame⟩ |
            ⟨v, hv, hactive, hmark, -, hget⟩
          · rw [hsame]
            rfl
          · by_cases hr' : r = ref
            · subst hr'
              simp only [source, Versions.source, hget, if_true, hv, Option.any_some]
              exact Versions.versionVisible_marked hholds hforeign hactive hmark
            · simp only [source, Versions.source, hget, if_neg hr']
      | enter session ref grants =>
          rcases enter_cases t session ref grants with hrun | ⟨v, creator, hv, -, hrun⟩
          · exact ⟨t, rows, hrun, h, fun _ hholds _ => .refl hholds rows⟩
          · obtain ⟨answer, index, rows', hinsert, h', hseen⟩ := h.put (some creator) hv grants
            refine ⟨_, rows', hrun hinsert, h', fun viewer hholds hforeign => ?_⟩
            exact hseen viewer hholds (hhidden hholds hv (hforeign v hv))
      | drop ref =>
          obtain ⟨index, rows', hrun, hconfig, hlists, hsub⟩ := drop_lists h.lists ref
          exact ⟨_, rows', hrun, h.sublist hconfig hlists hsub, fun _ _ => False.elim⟩
      | clear =>
          exact ⟨_, [], rfl, h.sublist rfl (Index.clear_lists h.lists) (by simp),
            fun _ _ => False.elim⟩

private theorem Formed.consistent (h : Formed config t) : ∃ rows, t.Consistent config rows := by
  induction h with
  | @start columns index hcreate =>
      obtain ⟨hlists, hconfig⟩ := Index.create_lists
        (source { registry := {}, versions := { columns }, index }) hcreate
      refine ⟨[], hconfig, hlists, .empty, by simp, fun u n hu => ?_⟩
      cases Registry.begunAt?_eq.mpr hu
  | step _ hrun ih =>
      obtain ⟨rows, h⟩ := ih
      obtain ⟨t', rows', hrun', h', -⟩ := h.call _
      rw [hrun] at hrun'
      cases hrun'
      exact ⟨rows', h'⟩

private theorem Consistent.passes (h : t.Consistent config rows) (hholds : t.registry.Holds viewer)
    {t' : Table} (hpasses : Passes viewer.txn t t') :
    ∃ rows', t'.Consistent config rows' ∧ Undisturbed viewer t rows t' rows' := by
  induction hpasses with
  | refl => exact ⟨rows, h, .refl hholds rows⟩
  | step _ hforeign hrun ih =>
      obtain ⟨rows', h', hundisturbed⟩ := ih
      obtain ⟨t'', rows'', hrun', h'', hstep⟩ := h'.call _
      rw [hrun] at hrun'
      cases hrun'
      exact ⟨rows'', h'', hundisturbed.trans (hstep viewer hundisturbed.holds hforeign)⟩

private theorem Undisturbed.yield_eq {t' : Table} {rows' : List VersionRef}
    (h : Undisturbed viewer t rows t' rows') (key : KeyOrder) (q : Request) :
    q.yield key t'.source viewer rows' = q.yield key t.source viewer rows := by
  rw [Request.yield_eq, Request.yield_eq, h.seen]
  apply List.filter_congr
  intro r hr
  have hseen : r ∈ rows.filter (t.source.visible viewer) := by
    cases hd : q.direction with
    | forward => rwa [hd] at hr
    | backward =>
        rw [hd] at hr
        exact List.mem_reverse.mp hr
  obtain ⟨hr', hv⟩ := List.mem_filter.mp hseen
  exact q.admits_congr key (h.project r hr' hv)

/-- However long others go on while the transaction of a snapshot is active, no call meets a fault,
and every scan under the snapshot reads the same rows in the same order. The snapshot may have been
taken from an earlier registry than that of the table in which the others begin to act. -/
theorem scan_snapshot {config : Index.Config} {t t' : Table} (h : Formed config t) {r : Registry}
    {txn session : Int} {viewer : Viewer} (hviewer : r.viewer txn session = .ok viewer)
    (hsnapshot : viewer.isolation = .snapshot) (hlater : r.Advances t.registry)
    (hactive : t.registry.isActive txn = true) (hpasses : Passes txn t t') :
    (∀ c, ∃ t'', t'.call c = .ok t'') ∧
      ∀ q, ∃ s s₁ s' s₁' all, t.index.answer t.source viewer q = .ok s ∧
        s.drain t.source = .ok (all, s₁) ∧ t'.index.answer t'.source viewer q = .ok s' ∧
        s'.drain t'.source = .ok (all, s₁') := by
  obtain ⟨rows, hrows⟩ := h.consistent
  obtain ⟨hbegun, rfl, -⟩ := Registry.viewer_eq hviewer
  have hbegun' := hlater.stays_active hbegun hactive
  have hholds : t.registry.Holds viewer :=
    ⟨hrows.registry, hsnapshot, hbegun', hrows.begun _ _ hbegun'⟩
  obtain ⟨rows', hrows', hundisturbed⟩ := hrows.passes hholds hpasses
  constructor
  · intro c
    obtain ⟨t'', rows'', hrun, -⟩ := hrows'.call c
    exact ⟨t'', hrun⟩
  · intro q
    obtain ⟨s, s₁, hanswer, hdrain⟩ := hrows.lists.answer_yield viewer q
    obtain ⟨s', s₁', hanswer', hdrain'⟩ := hrows'.lists.answer_yield viewer q
    refine ⟨s, s₁, s', s₁', _, hanswer, hdrain, hanswer', ?_⟩
    rw [hdrain', Index.key, Index.key, hrows.config_eq, hrows'.config_eq, hundisturbed.yield_eq]

/-- Another transaction deletes the row that a snapshot holds, adds one with its key, and
commits. -/
theorem scan_snapshot_replaced :
    ∃ (config : Index.Config) (t t' : Table) (viewer : Viewer), Formed config t ∧
      t.registry.viewer 2 0 = .ok viewer ∧ viewer.isolation = .snapshot ∧ Passes 2 t t' ∧
      t'.index.size = 2 ∧ t'.registry.isCommitted 3 = true ∧
      ((∀ c, ∃ t'', t'.call c = .ok t'') ∧
        ∀ q, ∃ s s₁ s' s₁' all, t.index.answer t.source viewer q = .ok s ∧
          s.drain t.source = .ok (all, s₁) ∧ t'.index.answer t'.source viewer q = .ok s' ∧
          s'.drain t'.source = .ok (all, s₁')) := by
  let config : Index.Config :=
    ⟨"flags", 0, [⟨0, .ascending, .first⟩], false, false, false, false⟩
  have hcreate : Index.create config none = Except.ok (⟨_, .empty⟩ : Index VersionRef) := rfl
  have h₀ : Formed config _ := .start hcreate
  have h₁ := h₀.step (show call _ (.operate (.transact .begin)) = .ok _ from rfl)
  have h₂ := h₁.step (show call _ (.operate (.append 1 7 ⟨[.boolean true]⟩)) = .ok _ from rfl)
  have h₃ := h₂.step (show call _ (.put none ⟨0⟩) = .ok _ from rfl)
  have h₄ := h₃.step (show call _ (.operate (.transact (.commit 1))) = .ok _ from rfl)
  have h₅ := h₄.step (show call _ (.operate (.transact (.beginAt .snapshot))) = .ok
    { registry :=
        { lastTxn := 2, sequence := 3, active := [(2, 3)], committed := [(1, 2)]
          overrides := [(2, .snapshot)] }
      versions := { stored := #[⟨7, ⟨[.boolean true]⟩, 1, none⟩] }
      index := _ } from rfl)
  have p₀ : ∀ t, Formed config t → Passes 2 t t := fun _ _ => .refl
  have p₁ := (p₀ _ h₅).step (c := .operate (.transact .begin)) ⟨by simp, by simp⟩ rfl
  have p₂ := p₁.step (c := .operate (.mark 3 ⟨0⟩)) (show (3 : Int) ≠ 2 by decide) rfl
  have p₃ := p₂.step (c := .operate (.append 3 7 ⟨[.boolean true]⟩))
    (show (3 : Int) ≠ 2 by decide) (show call _ _ = .ok
      { registry :=
          { lastTxn := 3, sequence := 4, active := [(3, 4), (2, 3)], committed := [(1, 2)]
            overrides := [(2, .snapshot)] }
        versions :=
          { stored := #[⟨7, ⟨[.boolean true]⟩, 1, some 3⟩, ⟨7, ⟨[.boolean true]⟩, 3, none⟩] }
        index := _ } from rfl)
  have p₄ := p₃.step (c := .put none ⟨1⟩)
    (fun _ hv => by cases hv; exact ⟨by decide, rfl⟩) rfl
  have p₅ := p₄.step (c := .operate (.transact (.commit 3))) ⟨by simp, by simp⟩ rfl
  have hviewer : Registry.viewer
      { lastTxn := 2, sequence := 3, active := [(2, 3)], committed := [(1, 2)]
        overrides := [(2, .snapshot)] } 2 0 = .ok ⟨0, 2, .snapshot, 3⟩ := rfl
  exact ⟨config, _, _, _, h₅, hviewer, rfl, p₅, rfl, rfl,
    scan_snapshot h₅ hviewer rfl (.refl _) rfl p₅⟩

end Table
end TableIndex
