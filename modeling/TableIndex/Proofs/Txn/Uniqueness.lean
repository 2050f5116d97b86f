import TableIndex.Proofs.Index.Paging
import TableIndex.Proofs.Txn.Succession

/-!
# Uniqueness under versions

Rows of a table are versions, and a unique index on them may hold several with one key. If each was
added for its creator while the creator was active, and the level of a transaction does not change
while it is active, then no transaction ever sees two of them.
-/

namespace TableIndex

/-- Versions under transactions, with one index on them. -/
structure Table where
  registry : Registry
  versions : Versions
  index : Index VersionRef

namespace Table

def source (t : Table) : RowSource VersionRef := t.versions.source t.registry

inductive Op
  | transact (op : Registry.Op)
  | append (txn rowId : Int) (row : Row)
  | mark (txn : Int) (ref : VersionRef)
  | enter (session : Int) (ref : VersionRef) (grants : Allocator := .addressable)
  | drop (ref : VersionRef)
  | clear

/-- The table after one operation, failed or not. A version is admitted to the index for its
creator, and not at all if it is not stored or its creator has ended. -/
def apply (t : Table) : Op → Checked Table
  | .transact op => .ok { t with registry := t.registry.apply op }
  | .append txn rowId row =>
      .ok { t with versions := (t.versions.insert t.registry txn rowId row).2 }
  | .mark txn ref => .ok { t with versions := (t.versions.delete t.registry txn ref).2 }
  | .enter session ref grants =>
      match t.versions.get? ref with
      | none => .ok t
      | some v =>
          match t.registry.viewer v.createdBy session with
          | .error _ => .ok t
          | .ok viewer => do
              return { t with index := (← t.index.insert t.source (some viewer) ref grants).2 }
  | .drop ref => do return { t with index := (← t.index.delete t.source ref).2 }
  | .clear => .ok { t with index := t.index.clear }

/-- A table that operations on an empty one have built, none of which changed the level of a
transaction that was active before and after it. -/
inductive Reached (config : Index.Config) : Table → Prop
  | start {columns : Option Nat} {index : Index VersionRef} :
      Index.create config columns = .ok index →
      Reached config { registry := {}, versions := { columns }, index }
  | step {t t' : Table} {op : Op} :
      Reached config t → t.apply op = .ok t' → t.registry.LevelsKept t'.registry →
      Reached config t'

/-- What holds of a table whose unique index holds these rows. -/
structure Sound (config : Index.Config) (t : Table) (rows : List VersionRef) : Prop where
  config_eq : t.index.config = config
  lists : t.index.Lists t.source rows
  registry : t.registry.Sound
  stored : ∀ r ∈ rows, ∃ v, t.versions.get? r = some v
  created : ∀ r v, t.versions.get? r = some v → t.registry.Issued v.createdBy
  deleted : ∀ r v, t.versions.get? r = some v → ∀ d, v.deletedBy = some d → t.registry.Issued d
  past : ∀ u s, t.registry.state? u = some (.committed s) → s ≤ t.registry.sequence
  apart : ∀ a ∈ rows, ∀ b ∈ rows, a ≠ b → config.key.hasNull t.source a = false →
    config.key.compare t.source a b = .eq → ∀ v w, t.versions.get? a = some v →
    t.versions.get? b = some w → Versions.Apart t.registry v w

/-- Every stored version is stored in `s'` too, and may bear a new mark there. -/
def Keeps (r : Registry) (s s' : Versions) : Prop :=
  ∀ ref v, s.get? ref = some v → ∃ v', s'.get? ref = some v' ∧ Versions.Remarked r v v'

theorem insert_cases (r : Registry) (s : Versions) (txn rowId : Int) (row : Row) :
    (∃ e, s.insert r txn rowId row = (.error e, s)) ∨
      r.isActive txn = true ∧ (s.insert r txn rowId row).1 = .ok ⟨s.size⟩ ∧ ∀ ref : VersionRef,
        (s.insert r txn rowId row).2.get? ref =
          if ref.index = s.size then some ⟨rowId, row, txn, none⟩ else s.get? ref := by
  unfold Versions.insert
  split
  · exact .inl ⟨_, rfl⟩
  rename_i hactive
  split
  · exact .inl ⟨_, rfl⟩
  · right
    refine ⟨by simpa using hactive, rfl, fun ref => ?_⟩
    rw [Versions.get?, Array.getElem?_push]
    rfl

theorem insert_get? {r : Registry} {s : Versions} {txn rowId : Int} {row : Row} {ref : VersionRef}
    {v : Version} (hv : s.get? ref = some v) : (s.insert r txn rowId row).2.get? ref = some v := by
  rcases insert_cases r s txn rowId row with ⟨e, hsame⟩ | ⟨-, -, hget⟩
  · rw [hsame]
    exact hv
  · obtain ⟨hlt, -⟩ := Array.getElem?_eq_some_iff.mp hv
    exact (hget ref).trans ((if_neg (Nat.ne_of_lt hlt)).trans hv)

theorem insert_keeps (r : Registry) (s : Versions) (txn rowId : Int) (row : Row) :
    Keeps r s (s.insert r txn rowId row).2 :=
  fun _ v hv => ⟨v, insert_get? hv, .inl rfl⟩

private theorem insert_new {r : Registry} {s : Versions} {txn rowId : Int} {row : Row}
    {ref : VersionRef} {v : Version} (h : (s.insert r txn rowId row).2.get? ref = some v) :
    s.get? ref = some v ∨ v = ⟨rowId, row, txn, none⟩ ∧ r.isActive txn = true := by
  rcases insert_cases r s txn rowId row with ⟨e, hsame⟩ | ⟨hactive, -, hget⟩
  · rw [hsame] at h
    exact .inl h
  · rw [hget] at h
    split at h
    · exact .inr ⟨(Option.some.inj h).symm, hactive⟩
    · exact .inl h

/-- A delete does not answer true and changes nothing, or it answers true and marks one version that
bears no mark that counts. -/
theorem delete_cases (r : Registry) (s : Versions) (txn : Int) (ref : VersionRef) :
    (∃ answer, answer ≠ .ok true ∧ s.delete r txn ref = (answer, s)) ∨
      ∃ v, s.get? ref = some v ∧ r.isActive txn = true ∧ Versions.isMarked r v txn = false ∧
        (s.delete r txn ref).1 = .ok true ∧ ∀ u, (s.delete r txn ref).2.get? u =
          if u = ref then some { v with deletedBy := some txn } else s.get? u := by
  unfold Versions.delete
  split
  · exact .inl ⟨_, by simp, rfl⟩
  rename_i hactive
  split
  · exact .inl ⟨_, by simp, rfl⟩
  · rename_i v hv
    split
    · exact .inl ⟨_, by simp, rfl⟩
    · rename_i hmark
      obtain ⟨hlt, -⟩ := Array.getElem?_eq_some_iff.mp hv
      right
      refine ⟨v, hv, by simpa using hactive, by simpa using hmark, rfl, fun u => ?_⟩
      rw [Versions.get?]
      by_cases hu : u = ref
      · rw [if_pos hu, hu, Array.getElem?_setIfInBounds_self_of_lt hlt]
      · have hne : ref.index ≠ u.index := fun h => hu (congrArg VersionRef.mk h.symm)
        rw [if_neg hu, Array.getElem?_setIfInBounds_ne hne]
        rfl

theorem delete_keeps (r : Registry) (s : Versions) (txn : Int) (ref : VersionRef) :
    Keeps r s (s.delete r txn ref).2 := by
  intro u v hv
  rcases delete_cases r s txn ref with ⟨answer, -, hsame⟩ | ⟨w, hw, -, hmark, -, hget⟩
  · rw [hsame]
    exact ⟨v, hv, .inl rfl⟩
  · rw [hget]
    by_cases hu : u = ref
    · subst hu
      obtain rfl : w = v := Option.some.inj (hw.symm.trans hv)
      exact ⟨_, if_pos rfl, .inr ⟨txn, rfl, hmark⟩⟩
    · exact ⟨v, (if_neg hu).trans hv, .inl rfl⟩

private theorem delete_new {r : Registry} {s : Versions} {txn : Int} {ref u : VersionRef}
    {v : Version} (h : (s.delete r txn ref).2.get? u = some v) :
    s.get? u = some v ∨ ∃ w, s.get? u = some w ∧ v = { w with deletedBy := some txn } ∧
      r.isActive txn = true := by
  rcases delete_cases r s txn ref with ⟨answer, -, hsame⟩ | ⟨w, hw, hactive, -, -, hget⟩
  · rw [hsame] at h
    exact .inl h
  · rw [hget] at h
    split at h
    · rename_i hu
      subst hu
      exact .inr ⟨w, hw, (Option.some.inj h).symm, hactive⟩
    · exact .inl h

theorem Keeps.agrees {r r' r'' : Registry} {s s' : Versions} (h : Keeps r s s') {ref : VersionRef}
    {v : Version} (hv : s.get? ref = some v) :
    (s'.source r'').project ref = (s.source r').project ref ∧
      (s'.source r'').rowId ref = (s.source r').rowId ref ∧
      (s'.source r'').versionId ref = (s.source r').versionId ref := by
  obtain ⟨v', hv', rfl | ⟨txn, rfl, -⟩⟩ := h ref v hv
  · simp [Versions.source, hv, hv']
  · simp [Versions.source, hv, hv']

variable {config : Index.Config} {t : Table} {rows : List VersionRef}

theorem Keeps.lists {versions : Versions} (h : Keeps t.registry t.versions versions)
    (hlists : t.index.Lists t.source rows)
    (hstored : ∀ r ∈ rows, ∃ v, t.versions.get? r = some v) :
    t.index.Lists (versions.source t.registry) rows ∧
      ∀ r ∈ rows, ∃ v, versions.get? r = some v := by
  constructor
  · apply hlists.congr_source
    intro r hr
    obtain ⟨v, hv⟩ := hstored r hr
    exact h.agrees hv
  · intro r hr
    obtain ⟨v, hv⟩ := hstored r hr
    obtain ⟨v', hv', -⟩ := h r v hv
    exact ⟨v', hv'⟩

theorem enter_cases (t : Table) (session : Int) (ref : VersionRef) (grants : Allocator) :
    t.apply (.enter session ref grants) = .ok t ∨
      ∃ v creator, t.versions.get? ref = some v ∧
        t.registry.viewer v.createdBy session = .ok creator ∧
        ∀ {answer index},
          t.index.insert t.source (some creator) ref grants = .ok (answer, index) →
            t.apply (.enter session ref grants) = .ok { t with index } := by
  cases hv : t.versions.get? ref with
  | none => exact .inl (by simp only [apply, hv])
  | some v =>
      cases hcreator : t.registry.viewer v.createdBy session with
      | error e => exact .inl (by simp only [apply, hv, hcreator])
      | ok creator =>
          refine .inr ⟨v, creator, rfl, hcreator, fun hrun => ?_⟩
          simp only [apply, hv, hcreator, hrun, ok_bind, pure_eq_ok]

theorem drop_lists (h : t.index.Lists t.source rows) (ref : VersionRef) :
    ∃ index rows', t.apply (.drop ref) = .ok { t with index } ∧
      index.config = t.index.config ∧ index.Lists t.source rows' ∧ ∀ r ∈ rows', r ∈ rows := by
  rcases Index.delete_cases h ref with ⟨-, hrun⟩ | ⟨tree, before, r, after, hrun, rfl, -, hlists⟩
  · refine ⟨t.index, rows, ?_, rfl, h, fun _ hr => hr⟩
    rw [apply, hrun]
    rfl
  · refine ⟨{ t.index with tree }, before ++ after, ?_, rfl, hlists, fun u hu => ?_⟩
    · rw [apply, hrun]
      rfl
    · simp only [List.mem_append, List.mem_cons] at hu ⊢
      tauto

private theorem Sound.transact (h : t.Sound config rows) (op : Registry.Op)
    (hlevels : t.registry.LevelsKept (t.registry.apply op)) :
    Sound config { t with registry := t.registry.apply op } rows := by
  have hr := Registry.Advances.apply h.registry op
  constructor
  · exact h.config_eq
  · exact h.lists.congr_source fun r _ => ⟨rfl, rfl, rfl⟩
  · exact h.registry.apply op
  · exact h.stored
  · exact fun r v hv => hr.issued (h.created r v hv)
  · exact fun r v hv d hd => hr.issued (h.deleted r v hv d hd)
  · intro u s hs
    rcases hr.recent hs with hs | hs
    · exact (h.past u s hs).trans hr.sequence_le
    · exact hs
  · intro a ha b hb hne hnull heq v w hv hw
    have heq' : config.key.compare t.source a b = .eq := by
      rw [← heq]
      exact KeyOrder.compare_congr config.key rfl rfl
    exact (h.apart a ha b hb hne hnull heq' v w hv hw).advances hr hlevels h.past

private theorem Sound.keeps (h : t.Sound config rows) {versions : Versions}
    (hkeeps : Keeps t.registry t.versions versions)
    (hcreated : ∀ r v, versions.get? r = some v → t.registry.Issued v.createdBy)
    (hdeleted : ∀ r v, versions.get? r = some v → ∀ d, v.deletedBy = some d → t.registry.Issued d) :
    Sound config { t with versions } rows := by
  have hagree : ∀ r ∈ rows, (versions.source t.registry).project r = t.source.project r := by
    intro r hr
    obtain ⟨v, hv⟩ := h.stored r hr
    exact (hkeeps.agrees hv).1
  obtain ⟨hlists, hstored⟩ := hkeeps.lists h.lists h.stored
  constructor
  · exact h.config_eq
  · exact hlists
  · exact h.registry
  · exact hstored
  · exact hcreated
  · exact hdeleted
  · exact h.past
  · intro a ha b hb hne hnull heq v' w' hv' hw'
    obtain ⟨v, hv⟩ := h.stored a ha
    obtain ⟨w, hw⟩ := h.stored b hb
    obtain ⟨v'', hv'', hmarkv⟩ := hkeeps a v hv
    obtain ⟨w'', hw'', hmarkw⟩ := hkeeps b w hw
    obtain rfl : v'' = v' := Option.some.inj (hv''.symm.trans hv')
    obtain rfl : w'' = w' := Option.some.inj (hw''.symm.trans hw')
    have hnull' : config.key.hasNull t.source a = false := by
      rw [← hnull]
      exact KeyOrder.hasNull_congr config.key (hagree a ha).symm
    have heq' : config.key.compare t.source a b = .eq :=
      (KeyOrder.compare_congr config.key (hagree a ha).symm (hagree b hb).symm).trans heq
    exact (h.apart a ha b hb hne hnull' heq' v w hv hw).remarked hmarkv hmarkw
      (h.created a v hv) (h.created b w hw)

private theorem Sound.append (h : t.Sound config rows) (txn rowId : Int) (row : Row) :
    Sound config { t with versions := (t.versions.insert t.registry txn rowId row).2 } rows := by
  refine h.keeps (insert_keeps t.registry t.versions txn rowId row) ?_ ?_
  · intro r v hv
    rcases insert_new hv with hv | ⟨rfl, hactive⟩
    · exact h.created r v hv
    · obtain ⟨n, hn⟩ := Registry.isActive_iff.mp hactive
      exact ⟨_, hn⟩
  · intro r v hv d hd
    rcases insert_new hv with hv | ⟨rfl, -⟩
    · exact h.deleted r v hv d hd
    · cases hd

private theorem Sound.mark (h : t.Sound config rows) (txn : Int) (ref : VersionRef) :
    Sound config { t with versions := (t.versions.delete t.registry txn ref).2 } rows := by
  refine h.keeps (delete_keeps t.registry t.versions txn ref) ?_ ?_
  · intro r v hv
    rcases delete_new hv with hv | ⟨w, hw, rfl, -⟩
    · exact h.created r v hv
    · exact h.created r w hw
  · intro r v hv d hd
    rcases delete_new hv with hv | ⟨w, hw, rfl, hactive⟩
    · exact h.deleted r v hv d hd
    · obtain ⟨n, hn⟩ := Registry.isActive_iff.mp hactive
      cases hd
      exact ⟨_, hn⟩

private theorem Sound.sublist (h : t.Sound config rows) {index : Index VersionRef}
    {rows' : List VersionRef} (hconfig : index.config = t.index.config)
    (hlists : index.Lists t.source rows') (hsub : ∀ r ∈ rows', r ∈ rows) :
    Sound config { t with index } rows' where
  config_eq := hconfig.trans h.config_eq
  lists := hlists
  registry := h.registry
  stored := fun r hr => h.stored r (hsub r hr)
  created := h.created
  deleted := h.deleted
  past := h.past
  apart := fun a ha b hb => h.apart a (hsub a ha) b (hsub b hb)

private theorem Sound.enter (h : t.Sound config rows) (hunique : config.isUnique = true)
    {ref : VersionRef} {v : Version} (hv : t.versions.get? ref = some v) {session : Int}
    {viewer : Viewer} (hviewer : t.registry.viewer v.createdBy session = .ok viewer)
    (grants : Allocator) :
    ∃ answer index rows', t.index.insert t.source (some viewer) ref grants = .ok (answer, index) ∧
      Sound config { t with index } rows' := by
  rcases Index.insert_cases h.lists (some viewer) ref grants with ⟨-, hrun⟩ | ⟨-, ⟨-, hrun⟩ |
    ⟨hadmits, ⟨_, _, -, hrun⟩ | ⟨tree, before, after, hrun, rfl, hlists⟩⟩⟩
  · exact ⟨_, t.index, rows, hrun, h⟩
  · exact ⟨_, t.index, rows, hrun, h⟩
  · exact ⟨_, t.index, rows, hrun, h⟩
  · refine ⟨_, _, before ++ ref :: after, hrun, ?_⟩
    -- a row that was there and has the key does not count against the creator of the new one
    have hnew : ∀ a ∈ before ++ after, config.key.hasNull t.source a = false →
        config.key.compare t.source a ref = .eq → ∀ w, t.versions.get? a = some w →
        Versions.Apart t.registry w v := by
      intro a ha hnull heq w hw
      refine Versions.apart_of_not_claims h.registry hviewer rfl (h.deleted a w hw) ?_
      by_contra hclaims
      refine hadmits ⟨h.config_eq ▸ hunique, ?_, a, ha, ?_, ?_⟩
      · rw [Index.key, h.config_eq, ← KeyOrder.hasNull_eq_of_compare heq]
        exact hnull
      · rw [Index.key, h.config_eq]
        exact heq
      · simpa [Index.counts, source, Versions.source, hw] using hclaims
    have hmem : ∀ {r}, r ∈ before ++ ref :: after → r = ref ∨ r ∈ before ++ after := by
      intro r hr
      simp only [List.mem_append, List.mem_cons] at hr ⊢
      tauto
    constructor
    · exact h.config_eq
    · exact hlists
    · exact h.registry
    · intro r hr
      rcases hmem hr with rfl | hr
      · exact ⟨v, hv⟩
      · exact h.stored r hr
    · exact h.created
    · exact h.deleted
    · exact h.past
    · intro a ha b hb hne hnull heq w₁ w₂ hw₁ hw₂
      have hswap : config.key.compare t.source b a = .eq := Std.OrientedCmp.eq_symm heq
      rcases hmem ha with rfl | ha' <;> rcases hmem hb with rfl | hb'
      · exact absurd rfl hne
      · obtain rfl : w₁ = v := Option.some.inj (hw₁.symm.trans hv)
        have hnull' : config.key.hasNull t.source b = false := by
          rw [KeyOrder.hasNull_eq_of_compare hswap]
          exact hnull
        exact (hnew b hb' hnull' hswap w₂ hw₂).symm
      · obtain rfl : w₂ = v := Option.some.inj (hw₂.symm.trans hv)
        exact hnew a ha' hnull heq w₁ hw₁
      · exact h.apart a ha' b hb' hne hnull heq w₁ w₂ hw₁ hw₂

/-- Every operation meets no fault, and it leaves a sound table unless it has changed the level of a
transaction. -/
theorem Sound.apply (h : t.Sound config rows) (hunique : config.isUnique = true) (op : Op) :
    ∃ t', t.apply op = .ok t' ∧ (t.registry.LevelsKept t'.registry → ∃ rows', t'.Sound config rows')
    := by
  cases op with
  | transact op => exact ⟨_, rfl, fun hlevels => ⟨rows, h.transact op hlevels⟩⟩
  | append txn rowId row => exact ⟨_, rfl, fun _ => ⟨rows, h.append txn rowId row⟩⟩
  | mark txn ref => exact ⟨_, rfl, fun _ => ⟨rows, h.mark txn ref⟩⟩
  | enter session ref grants =>
      rcases enter_cases t session ref grants with hrun | ⟨v, creator, hv, hcreator, hrun⟩
      · exact ⟨t, hrun, fun _ => ⟨rows, h⟩⟩
      · obtain ⟨answer, index, rows', hinsert, h'⟩ := h.enter hunique hv hcreator grants
        exact ⟨_, hrun hinsert, fun _ => ⟨rows', h'⟩⟩
  | drop ref =>
      obtain ⟨index, rows', hrun, hconfig, hlists, hsub⟩ := drop_lists h.lists ref
      exact ⟨_, hrun, fun _ => ⟨rows', h.sublist hconfig hlists hsub⟩⟩
  | clear => exact ⟨_, rfl, fun _ => ⟨[], h.sublist rfl (Index.clear_lists h.lists) (by simp)⟩⟩

private theorem Reached.sound (h : Reached config t) (hunique : config.isUnique = true) :
    ∃ rows, t.Sound config rows := by
  induction h with
  | @start columns index hcreate =>
      obtain ⟨hlists, hconfig⟩ := Index.create_lists
        (source { registry := {}, versions := { columns }, index }) hcreate
      refine ⟨[], hconfig, hlists, .empty, by simp, ?_, ?_, ?_, by simp⟩
      · intro r v hv
        simp [Versions.get?] at hv
      · intro r v hv
        simp [Versions.get?] at hv
      · intro u s hs
        cases Registry.committedAt?_of_state? hs
  | step _ hrun hlevels ih =>
      obtain ⟨rows, h⟩ := ih
      obtain ⟨t', hrun', hsound⟩ := h.apply hunique _
      rw [hrun] at hrun'
      cases hrun'
      exact hsound hlevels

/-- Whatever the operations were, no scan that an active transaction makes of a unique index hands
out two versions with equal keys that have no nulls. -/
theorem scan_unique {config : Index.Config} {t : Table} (h : Reached config t)
    (hunique : config.isUnique = true) {txn session : Int} {viewer : Viewer}
    (hviewer : t.registry.viewer txn session = .ok viewer) (q : Request) :
    ∃ s all s', t.index.answer t.source viewer q = .ok s ∧ s.drain t.source = .ok (all, s') ∧
      ∀ a ∈ all, ∀ b ∈ all, config.key.hasNull t.source a = false →
        config.key.compare t.source a b = .eq → a = b := by
  obtain ⟨rows, hsound⟩ := h.sound hunique
  obtain ⟨s, all, s', hanswer, hdrain, -, hmem⟩ := Index.answer_drain hsound.lists viewer q
  refine ⟨s, all, s', hanswer, hdrain, ?_⟩
  intro a ha b hb hnull heq
  obtain ⟨ha, hva⟩ := hmem a ha
  obtain ⟨hb, hvb⟩ := hmem b hb
  obtain ⟨v, hv⟩ := hsound.stored a ha
  obtain ⟨w, hw⟩ := hsound.stored b hb
  by_contra hne
  have hapart := hsound.apart a ha b hb hne hnull heq v w hv hw
  simp only [source, Versions.source, hv, hw, Option.any_some] at hva hvb
  rw [hapart.not_both hsound.registry hviewer hva] at hvb
  exact Bool.noConfusion hvb

theorem scan_unique_replaced :
    ∃ (config : Index.Config) (t : Table) (viewer : Viewer), t.index.size = 2 ∧
      t.registry.viewer 2 0 = .ok viewer ∧
      ∃ s all s', t.index.answer t.source viewer (.full .forward) = .ok s ∧
        s.drain t.source = .ok (all, s') ∧
        ∀ a ∈ all, ∀ b ∈ all, config.key.hasNull t.source a = false →
          config.key.compare t.source a b = .eq → a = b := by
  let config : Index.Config :=
    ⟨"flags", 0, [⟨0, .ascending, .first⟩], true, false, false, false⟩
  have hcreate : Index.create config none = Except.ok (⟨_, .empty⟩ : Index VersionRef) := rfl
  have h₀ : Reached config _ := .start hcreate
  have h₁ := h₀.step (show apply _ (.transact .begin) = .ok _ from rfl) fun _ _ _ => rfl
  have h₂ := h₁.step (show apply _ (.append 1 7 ⟨[.boolean true]⟩) = .ok _ from rfl)
    fun _ _ _ => rfl
  have h₃ := h₂.step (show apply _ (.enter 0 ⟨0⟩) = .ok _ from rfl) fun _ _ _ => rfl
  have h₄ := h₃.step (show apply _ (.mark 1 ⟨0⟩) = .ok _ from rfl) fun _ _ _ => rfl
  have h₅ := h₄.step (show apply _ (.append 1 8 ⟨[.boolean true]⟩) = .ok
    { registry := { lastTxn := 1, sequence := 1, active := [(1, 1)] }
      versions :=
        { stored := #[⟨7, ⟨[.boolean true]⟩, 1, some 1⟩, ⟨8, ⟨[.boolean true]⟩, 1, none⟩] }
      index := _ } from rfl) fun _ _ _ => rfl
  have h₆ := h₅.step (show apply _ (.enter 0 ⟨1⟩) = .ok _ from rfl) fun _ _ _ => rfl
  have h₇ := h₆.step (show apply _ (.transact (.commit 1)) = .ok _ from rfl) fun _ _ _ => rfl
  have h₈ := h₇.step (show apply _ (.transact .begin) = .ok
    { registry := { lastTxn := 2, sequence := 3, active := [(2, 3)], committed := [(1, 2)] }
      versions := _
      index := _ } from rfl) fun _ _ _ => rfl
  have hviewer : Registry.viewer
      { lastTxn := 2, sequence := 3, active := [(2, 3)], committed := [(1, 2)] } 2 0 =
      .ok ⟨0, 2, .readCommitted, 3⟩ := rfl
  exact ⟨config, _, _, rfl, hviewer, scan_unique h₈ rfl hviewer (.full .forward)⟩

end Table
end TableIndex
