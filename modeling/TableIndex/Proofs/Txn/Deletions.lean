import TableIndex.Proofs.Txn.History

/-!
# Deletions that are forgotten

A version has room for one mark, and a new one takes the place of the mark of a transaction that has
aborted. What is forgotten with it was never to be seen, so a version is visible exactly when its
creator is seen and none of all the transactions that have deleted it.
-/

namespace TableIndex

/-- Versions with the registry of the transactions that write them. -/
structure Store where
  registry : Registry := {}
  versions : Versions := {}

namespace Store

inductive Op
  | transact (op : Registry.Op)
  | append (txn rowId : Int) (row : Row)
  | mark (txn : Int) (ref : VersionRef)

/-- The store after one operation, failed or not. -/
def apply (s : Store) : Op → Store
  | .transact op => { s with registry := s.registry.apply op }
  | .append txn rowId row =>
      { s with versions := (s.versions.insert s.registry txn rowId row).2 }
  | .mark txn ref => { s with versions := (s.versions.delete s.registry txn ref).2 }

/-- A new store after a run of operations. -/
def run (columns : Option Nat) (ops : List Op) : Store :=
  ops.foldl apply { versions := { columns } }

/-- The versions as a source of rows, under the registry. -/
def source (s : Store) : RowSource VersionRef := s.versions.source s.registry

/-- In the run, an insert of the transaction has answered with the version. -/
def Creates (columns : Option Nat) (ops : List Op) (txn : Int) (ref : VersionRef) : Prop :=
  Occurs (fun before op => ∃ rowId row, op = .append txn rowId row ∧
    ((run columns before).versions.insert (run columns before).registry txn rowId row).1 =
      .ok ref) ops

/-- In the run, a delete of the version by the transaction has answered true. -/
def Deletes (columns : Option Nat) (ops : List Op) (txn : Int) (ref : VersionRef) : Prop :=
  Occurs (fun before op => op = .mark txn ref ∧
    ((run columns before).versions.delete (run columns before).registry txn ref).1 = .ok true) ops

variable {columns : Option Nat} {ops : List Op}

private theorem run_append (op : Op) : run columns (ops ++ [op]) = (run columns ops).apply op := by
  simp [run]

private theorem registry_sound (columns : Option Nat) (ops : List Op) :
    (run columns ops).registry.Sound := by
  induction ops using List.reverseRecOn with
  | nil => exact .empty
  | append_singleton ops op ih =>
      rw [run_append]
      cases op with
      | transact op => exact ih.apply op
      | append txn rowId row => exact ih
      | mark txn ref => exact ih

private theorem creates_append {op : Op} {txn : Int} {ref : VersionRef} :
    Creates columns (ops ++ [op]) txn ref ↔ Creates columns ops txn ref ∨
      ∃ rowId row, op = .append txn rowId row ∧
        ((run columns ops).versions.insert (run columns ops).registry txn rowId row).1 =
          .ok ref := occurs_append

private theorem deletes_append {op : Op} {txn : Int} {ref : VersionRef} :
    Deletes columns (ops ++ [op]) txn ref ↔ Deletes columns ops txn ref ∨ op = .mark txn ref ∧
      ((run columns ops).versions.delete (run columns ops).registry txn ref).1 = .ok true :=
  occurs_append

/-- What the versions have kept of the run: every creator, and of the deleters of a version the last
one, all others having aborted. -/
structure Recorded (columns : Option Nat) (ops : List Op) : Prop where
  created : ∀ ref txn, Creates columns ops txn ref ↔
    ∃ v, (run columns ops).versions.get? ref = some v ∧ v.createdBy = txn
  marked : ∀ ref v d, (run columns ops).versions.get? ref = some v → v.deletedBy = some d →
    Deletes columns ops d ref
  kept : ∀ ref d, Deletes columns ops d ref → (run columns ops).registry.state? d = some .aborted ∨
    ∃ v, (run columns ops).versions.get? ref = some v ∧ v.deletedBy = some d
  issued : ∀ ref d, Deletes columns ops d ref → (run columns ops).registry.Issued d

private theorem Recorded.unchanged (h : Recorded columns ops) {op : Op}
    (hversions : ((run columns ops).apply op).versions = (run columns ops).versions)
    (hregistry : (run columns ops).registry.Advances ((run columns ops).apply op).registry)
    (hcreates : ∀ txn ref, Creates columns (ops ++ [op]) txn ref → Creates columns ops txn ref)
    (hdeletes : ∀ txn ref, Deletes columns (ops ++ [op]) txn ref → Deletes columns ops txn ref) :
    Recorded columns (ops ++ [op]) := by
  rw [← run_append] at hversions hregistry
  constructor
  · intro ref txn
    rw [hversions, ← h.created]
    exact ⟨hcreates txn ref, fun hold => creates_append.mpr (.inl hold)⟩
  · intro ref v d hv hd
    rw [hversions] at hv
    exact deletes_append.mpr (.inl (h.marked ref v d hv hd))
  · intro ref d hd
    rw [hversions]
    exact (h.kept ref d (hdeletes d ref hd)).imp_left hregistry.aborted
  · exact fun ref d hd => hregistry.issued (h.issued ref d (hdeletes d ref hd))

private theorem Recorded.transact (h : Recorded columns ops) (op : Registry.Op) :
    Recorded columns (ops ++ [.transact op]) := by
  refine h.unchanged rfl (.apply (registry_sound columns ops) op) (fun txn ref hc => ?_)
    fun txn ref hd => ?_
  · exact (creates_append.mp hc).resolve_right (by simp)
  · exact (deletes_append.mp hd).resolve_right (by simp)

private theorem registry_kept {op : Op} (hop : ∀ o, op ≠ .transact o) :
    (run columns (ops ++ [op])).registry = (run columns ops).registry := by
  rw [run_append]
  cases op with
  | transact o => exact absurd rfl (hop o)
  | append txn rowId row => rfl
  | mark txn ref => rfl

private theorem Recorded.appended (h : Recorded columns ops) {txn rowId : Int} {row : Row}
    (hanswer : ((run columns ops).versions.insert (run columns ops).registry txn rowId row).1 =
      .ok ⟨(run columns ops).versions.size⟩)
    (hget : ∀ ref, (run columns (ops ++ [.append txn rowId row])).versions.get? ref =
      if ref.index = (run columns ops).versions.size then some ⟨rowId, row, txn, none⟩
      else (run columns ops).versions.get? ref) :
    Recorded columns (ops ++ [.append txn rowId row]) := by
  have hfresh : ∀ ref, ref.index = (run columns ops).versions.size →
      (run columns ops).versions.get? ref = none := fun ref hsize =>
    Array.getElem?_eq_none hsize.ge
  have hlast : ∀ u ref, (∃ rowId' row', Op.append txn rowId row = .append u rowId' row' ∧
      ((run columns ops).versions.insert (run columns ops).registry u rowId' row').1 =
        .ok ref) ↔ u = txn ∧ ref.index = (run columns ops).versions.size := by
    intro u ref
    constructor
    · rintro ⟨_, _, ⟨⟩, hok⟩
      rw [hanswer] at hok
      cases hok
      exact ⟨rfl, rfl⟩
    · rintro ⟨rfl, hsize⟩
      exact ⟨rowId, row, rfl, hanswer.trans (by rw [← hsize])⟩
  have hdeletes : ∀ d ref, Deletes columns (ops ++ [.append txn rowId row]) d ref →
      Deletes columns ops d ref := fun d ref hd => (deletes_append.mp hd).resolve_right (by simp)
  constructor
  · intro ref u
    rw [creates_append, hlast, h.created, hget]
    by_cases hsize : ref.index = (run columns ops).versions.size
    · simp [hsize, hfresh ref hsize, eq_comm]
    · simp [hsize]
  · intro ref v d hv hd
    rw [hget] at hv
    split at hv
    · cases hv
      cases hd
    · exact deletes_append.mpr (.inl (h.marked ref v d hv hd))
  · intro ref d hd
    rw [registry_kept (by simp)]
    refine (h.kept ref d (hdeletes d ref hd)).imp_right ?_
    rintro ⟨v, hv, hmark⟩
    refine ⟨v, (hget ref).trans ?_, hmark⟩
    rw [if_neg, hv]
    intro hsize
    rw [hfresh ref hsize] at hv
    cases hv
  · intro ref d hd
    rw [registry_kept (by simp)]
    exact h.issued ref d (hdeletes d ref hd)

private theorem Recorded.append (h : Recorded columns ops) (txn rowId : Int) (row : Row) :
    Recorded columns (ops ++ [.append txn rowId row]) := by
  rcases Table.insert_cases (run columns ops).registry (run columns ops).versions txn rowId row with
    ⟨e, hsame⟩ | ⟨-, hanswer, hget⟩
  · refine h.unchanged (by simp only [apply, hsame]) (.refl _) (fun u ref hc => ?_) fun d ref hd =>
      (deletes_append.mp hd).resolve_right (by simp)
    refine (creates_append.mp hc).resolve_right ?_
    rintro ⟨_, _, ⟨⟩, hok⟩
    rw [hsame] at hok
    cases hok
  · exact h.appended hanswer fun ref => by rw [run_append]; exact hget ref

private theorem Recorded.replaced (h : Recorded columns ops) {txn : Int} {ref : VersionRef}
    {v : Version} (hv : (run columns ops).versions.get? ref = some v)
    (hactive : (run columns ops).registry.isActive txn = true)
    (hmark : Versions.isMarked (run columns ops).registry v txn = false)
    (hanswer : ((run columns ops).versions.delete (run columns ops).registry txn ref).1 = .ok true)
    (hget : ∀ u, (run columns (ops ++ [.mark txn ref])).versions.get? u =
      if u = ref then some { v with deletedBy := some txn }
      else (run columns ops).versions.get? u) :
    Recorded columns (ops ++ [.mark txn ref]) := by
  have hdeletes : ∀ d u, Deletes columns (ops ++ [.mark txn ref]) d u ↔
      Deletes columns ops d u ∨ d = txn ∧ u = ref := by
    intro d u
    rw [deletes_append]
    refine or_congr_right ⟨?_, ?_⟩
    · rintro ⟨⟨⟩, -⟩
      exact ⟨rfl, rfl⟩
    · rintro ⟨rfl, rfl⟩
      exact ⟨rfl, hanswer⟩
  have hissued : (run columns ops).registry.Issued txn := by
    obtain ⟨n, hn⟩ := Registry.isActive_iff.mp hactive
    exact ⟨_, hn⟩
  constructor
  · intro u d
    rw [creates_append, or_iff_left (by simp), h.created, hget]
    by_cases hu : u = ref
    · simp [hu, hv]
    · simp [hu]
  · intro u w d hw hd
    rw [hdeletes]
    rw [hget] at hw
    split at hw
    · next hu =>
        cases hw
        cases hd
        exact .inr ⟨rfl, hu⟩
    · exact .inl (h.marked u w d hw hd)
  · intro u d hd
    rw [registry_kept (by simp), hget]
    rcases (hdeletes d u).mp hd with hold | ⟨rfl, rfl⟩
    · refine (h.kept u d hold).elim .inl ?_
      rintro ⟨w, hw, hmarked⟩
      by_cases hu : u = ref
      · -- the mark that is overwritten is not one that counts
        subst hu
        obtain rfl : w = v := Option.some.inj (hw.symm.trans hv)
        simp only [Versions.isMarked, hmarked, Option.any_some, Bool.or_eq_false_iff] at hmark
        exact .inl ((h.issued u d hold).aborted hmark.1.2 hmark.2)
      · exact .inr ⟨w, by rw [if_neg hu, hw], hmarked⟩
    · exact .inr ⟨_, if_pos rfl, rfl⟩
  · intro u d hd
    rw [registry_kept (by simp)]
    rcases (hdeletes d u).mp hd with hold | ⟨rfl, -⟩
    · exact h.issued u d hold
    · exact hissued

private theorem Recorded.mark (h : Recorded columns ops) (txn : Int) (ref : VersionRef) :
    Recorded columns (ops ++ [.mark txn ref]) := by
  rcases Table.delete_cases (run columns ops).registry (run columns ops).versions txn ref with
    ⟨answer, hanswer, hsame⟩ | ⟨v, hv, hactive, hmark, hanswer, hget⟩
  · refine h.unchanged (by simp only [apply, hsame]) (.refl _) (fun u r hc =>
      (creates_append.mp hc).resolve_right (by simp)) fun d r hd => ?_
    refine (deletes_append.mp hd).resolve_right ?_
    rintro ⟨⟨⟩, hok⟩
    rw [hsame] at hok
    exact hanswer hok
  · exact h.replaced hv hactive hmark hanswer fun u => by rw [run_append]; exact hget u

theorem recorded (columns : Option Nat) (ops : List Op) : Recorded columns ops := by
  induction ops using List.reverseRecOn with
  | nil =>
      have hempty : ∀ ref, (run columns []).versions.get? ref = none := by
        intro ref
        simp [run, Versions.get?]
      refine ⟨fun ref txn => iff_of_false (occurs_nil _) ?_, fun ref v d hv => ?_,
        fun _ _ hd => absurd hd (occurs_nil _), fun _ _ hd => absurd hd (occurs_nil _)⟩
      · simp [hempty]
      · rw [hempty] at hv
        cases hv
  | append_singleton ops op ih =>
      cases op with
      | transact op => exact ih.transact op
      | append txn rowId row => exact ih.append txn rowId row
      | mark txn ref => exact ih.mark txn ref

/-- An active transaction has a view, and a version is visible in it exactly when the transaction
that created the version is seen and none that ever deleted it. -/
theorem visible_iff_created_not_deleted {columns : Option Nat} {ops : List Op} {txn : Int}
    (h : (run columns ops).registry.isActive txn = true) (session : Int) :
    ∃ viewer, (run columns ops).registry.viewer txn session = .ok viewer ∧ ∀ ref,
      ((run columns ops).source.visible viewer ref = true ↔
        (∃ creator, Creates columns ops creator ref ∧
          (run columns ops).registry.sees viewer creator = true) ∧
        ∀ deleter, Deletes columns ops deleter ref →
          (run columns ops).registry.sees viewer deleter = false) := by
  have hrec := recorded columns ops
  obtain ⟨viewer, hviewer⟩ := Registry.exists_viewer h session
  refine ⟨viewer, hviewer, fun ref => ?_⟩
  simp only [source, Versions.source, Option.any_eq_true, Versions.versionVisible,
    Bool.and_eq_true, Bool.not_eq_true']
  constructor
  · rintro ⟨v, hv, hcreator, hdeleted⟩
    refine ⟨⟨_, (hrec.created ref _).mpr ⟨v, hv, rfl⟩, hcreator⟩, fun d hd => ?_⟩
    rcases hrec.kept ref d hd with haborted | ⟨w, hw, hmarked⟩
    · exact Registry.not_sees_aborted hviewer haborted
    · obtain rfl : w = v := Option.some.inj (hw.symm.trans hv)
      rwa [Versions.deletionSeen, hmarked, Option.any_some] at hdeleted
  · rintro ⟨⟨creator, hcreates, hcreator⟩, hdeleters⟩
    obtain ⟨v, hv, rfl⟩ := (hrec.created ref creator).mp hcreates
    refine ⟨v, hv, hcreator, ?_⟩
    rw [Versions.deletionSeen, Option.any_eq_false]
    intro d hd
    simp [hdeleters d (hrec.marked ref v d hv hd)]

/-- Transaction 3 overwrites the mark of transaction 2, which has aborted. -/
theorem visible_iff_created_not_deleted_overwritten :
    ∃ (ops : List Op) (txn : Int), (run none ops).registry.isActive txn = true ∧
      (run none ops).versions.get? ⟨0⟩ = some ⟨7, ⟨[.null]⟩, 1, some 3⟩ ∧
      Deletes none ops 2 ⟨0⟩ ∧ Deletes none ops 3 ⟨0⟩ ∧
      ∃ viewer, (run none ops).registry.viewer txn 0 = .ok viewer ∧ ∀ ref,
        ((run none ops).source.visible viewer ref = true ↔
          (∃ creator, Creates none ops creator ref ∧
            (run none ops).registry.sees viewer creator = true) ∧
          ∀ deleter, Deletes none ops deleter ref →
            (run none ops).registry.sees viewer deleter = false) := by
  let start : List Op := [.transact .begin, .append 1 7 ⟨[.null]⟩, .transact (.commit 1),
    .transact .begin]
  let overwritten : List Op := [.transact (.abort 2), .transact .begin]
  refine ⟨start ++ .mark 2 ⟨0⟩ :: (overwritten ++ [.mark 3 ⟨0⟩]), 3, rfl, rfl, ?_, ?_,
    visible_iff_created_not_deleted rfl 0⟩
  · exact ⟨start, _, _, rfl, rfl, rfl⟩
  · exact ⟨start ++ .mark 2 ⟨0⟩ :: overwritten, _, [], rfl, rfl, rfl⟩

end Store
end TableIndex
