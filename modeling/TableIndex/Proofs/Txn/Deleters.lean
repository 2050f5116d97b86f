import TableIndex.Proofs.Txn.Deletions

/-!
# The one deleter that counts

A delete looks at one mark only, the last one. All those before it are of transactions that have
aborted, so it decides as if it knew the whole history: of the transactions that have ever deleted a
version, at most one is active or has committed, and a further delete is refused while there is one.
-/

namespace TableIndex

namespace Registry

/-- The transaction is active or has committed. -/
def Stands (r : Registry) (txn : Int) : Prop := r.isActive txn = true ∨ r.isCommitted txn = true

private theorem Issued.stands_or_aborted {r : Registry} {txn : Int} (h : r.Issued txn) :
    r.Stands txn ∨ r.isAborted txn = true := by
  by_cases hstands : r.Stands txn
  · exact .inl hstands
  · obtain ⟨ha, hc⟩ := not_or.mp hstands
    right
    rw [isAborted_iff]
    exact h.aborted (Bool.eq_false_iff.mpr ha) (Bool.eq_false_iff.mpr hc)

private theorem not_aborted {r : Registry} {txn : Int} (hstands : r.Stands txn) :
    r.state? txn ≠ some .aborted := by
  intro haborted
  have hnot := isAborted_iff.mpr haborted
  rcases hstands with h | h <;> simp [isAborted, h] at hnot

end Registry

namespace Versions

private theorem isMarked_iff {r : Registry} {v : Version} {txn : Int}
    (hactive : r.isActive txn = true) :
    isMarked r v txn = true ↔ ∃ d, v.deletedBy = some d ∧ r.Stands d := by
  simp only [isMarked, Option.any_eq_true, Bool.or_eq_true, decide_eq_true_eq]
  constructor
  · rintro ⟨d, hd, (rfl | ha) | hc⟩
    · exact ⟨d, hd, .inl hactive⟩
    · exact ⟨d, hd, .inl ha⟩
    · exact ⟨d, hd, .inr hc⟩
  · rintro ⟨d, hd, hstands⟩
    refine ⟨d, hd, ?_⟩
    rcases hstands with ha | hc
    · exact .inl (.inr ha)
    · exact .inr hc

private theorem delete_active {s : Versions} {r : Registry} {txn : Int} {ref : VersionRef}
    {v : Version} (hactive : r.isActive txn = true) (hv : s.get? ref = some v) :
    (s.delete r txn ref).1 = .ok !isMarked r v txn := by
  simp only [delete, hactive, hv, Bool.not_true, Bool.false_eq_true, if_false]
  cases isMarked r v txn with
  | true => rfl
  | false => rfl

private theorem delete_inactive {s : Versions} {r : Registry} {txn : Int} {ref : VersionRef}
    (hactive : r.isActive txn = false) : (s.delete r txn ref).1 = .error (.notActive txn) := by
  simp [delete, hactive]

end Versions

namespace Store

variable {columns : Option Nat} {ops : List Op}

private theorem Recorded.mark_of_stands (h : Recorded columns ops) {ref : VersionRef} {d : Int}
    (hd : Deletes columns ops d ref) (hstands : (run columns ops).registry.Stands d) :
    ∃ v, (run columns ops).versions.get? ref = some v ∧ v.deletedBy = some d :=
  (h.kept ref d hd).resolve_left (Registry.not_aborted hstands)

private theorem Recorded.standing_unique (h : Recorded columns ops) {ref : VersionRef}
    {d d' : Int} (hd : Deletes columns ops d ref) (hd' : Deletes columns ops d' ref)
    (hstands : (run columns ops).registry.Stands d)
    (hstands' : (run columns ops).registry.Stands d') : d = d' := by
  obtain ⟨v, hv, hmark⟩ := h.mark_of_stands hd hstands
  obtain ⟨v', hv', hmark'⟩ := h.mark_of_stands hd' hstands'
  rw [hv] at hv'
  cases hv'
  exact Option.some.inj (hmark.symm.trans hmark')

private theorem Recorded.isMarked_iff (h : Recorded columns ops) {ref : VersionRef} {v : Version}
    {txn : Int} (hactive : (run columns ops).registry.isActive txn = true)
    (hv : (run columns ops).versions.get? ref = some v) :
    Versions.isMarked (run columns ops).registry v txn = true ↔
      ∃ d, Deletes columns ops d ref ∧ (run columns ops).registry.Stands d := by
  rw [Versions.isMarked_iff hactive]
  constructor
  · rintro ⟨d, hd, hstands⟩
    exact ⟨d, h.marked ref v d hv hd, hstands⟩
  · rintro ⟨d, hd, hstands⟩
    obtain ⟨w, hw, hmark⟩ := h.mark_of_stands hd hstands
    rw [hv] at hw
    cases hw
    exact ⟨d, hmark, hstands⟩

private theorem Recorded.none_stands_iff (h : Recorded columns ops) {ref : VersionRef} :
    (¬ ∃ d, Deletes columns ops d ref ∧ (run columns ops).registry.Stands d) ↔
      ∀ d, Deletes columns ops d ref → (run columns ops).registry.isAborted d = true := by
  constructor
  · intro hnone d hd
    exact (h.issued ref d hd).stands_or_aborted.resolve_left fun hstands => hnone ⟨d, hd, hstands⟩
  · rintro hall ⟨d, hd, hstands⟩
    exact Registry.not_aborted hstands (Registry.isAborted_iff.mp (hall d hd))

private theorem apply_mark_refused (s : Store) {txn : Int} {ref : VersionRef}
    (hanswer : (s.versions.delete s.registry txn ref).1 ≠ .ok true) :
    s.apply (.mark txn ref) = s := by
  rcases Table.delete_cases s.registry s.versions txn ref with
    ⟨answer, -, hsame⟩ | ⟨v, -, -, -, hok, -⟩
  · simp only [apply, hsame]
  · exact absurd hok hanswer

/-- After any run at most one of the deleters of a version is active or has committed. A further
delete of a stored version by an active transaction answers true exactly when all of them have
aborted, and one that does not answer true leaves the store as it is. -/
theorem one_standing_deleter (columns : Option Nat) (ops : List Op) :
    (∀ ref d d', Deletes columns ops d ref → Deletes columns ops d' ref →
      (run columns ops).registry.Stands d → (run columns ops).registry.Stands d' → d = d') ∧
    ∀ txn ref,
      ((run columns ops).registry.isActive txn = true →
        ∀ v, (run columns ops).versions.get? ref = some v →
          ∃ b, ((run columns ops).versions.delete (run columns ops).registry txn ref).1 = .ok b ∧
            (b = true ↔ ∀ d, Deletes columns ops d ref →
              (run columns ops).registry.isAborted d = true)) ∧
      ((run columns ops).registry.isActive txn = false →
        ((run columns ops).versions.delete (run columns ops).registry txn ref).1 =
          .error (.notActive txn)) ∧
      (((run columns ops).versions.delete (run columns ops).registry txn ref).1 ≠ .ok true →
        (run columns ops).apply (.mark txn ref) = run columns ops) := by
  have h := recorded columns ops
  refine ⟨fun ref d d' => h.standing_unique, fun txn ref => ⟨?_, ?_, ?_⟩⟩
  · intro hactive v hv
    refine ⟨_, Versions.delete_active hactive hv, ?_⟩
    rw [Bool.not_eq_true', Bool.eq_false_iff, ne_eq, h.isMarked_iff hactive hv, h.none_stands_iff]
  · exact Versions.delete_inactive
  · exact apply_mark_refused _

/-- Transactions 2 and 3 have both deleted a version. The first of them has aborted, the second has
committed, so it is the only one, and transaction 4 is refused. -/
theorem one_standing_deleter_after_abort :
    ∃ ops : List Op, Deletes none ops 2 ⟨0⟩ ∧ Deletes none ops 3 ⟨0⟩ ∧
      (∀ d, Deletes none ops d ⟨0⟩ → (run none ops).registry.Stands d → d = 3) ∧
      (run none ops).registry.isActive 4 = true ∧
      ((run none ops).versions.delete (run none ops).registry 4 ⟨0⟩).1 = .ok false ∧
      (run none ops).apply (.mark 4 ⟨0⟩) = run none ops := by
  let first : List Op := [.transact .begin, .append 1 7 ⟨[.null]⟩, .transact (.commit 1),
    .transact .begin]
  let second : List Op := first ++ [.mark 2 ⟨0⟩, .transact (.abort 2), .transact .begin]
  let final : List Op := [.transact (.commit 3), .transact .begin]
  let ops : List Op := second ++ .mark 3 ⟨0⟩ :: final
  have hsecond : Deletes none ops 2 ⟨0⟩ := ⟨first, .mark 2 ⟨0⟩, _, rfl, rfl, rfl⟩
  have hthird : Deletes none ops 3 ⟨0⟩ := ⟨second, .mark 3 ⟨0⟩, final, rfl, rfl, rfl⟩
  have hcommitted : (run none ops).registry.isCommitted 3 = true := by decide +kernel
  have hactive : (run none ops).registry.isActive 4 = true := by decide +kernel
  have hrefused : ((run none ops).versions.delete (run none ops).registry 4 ⟨0⟩).1 = .ok false := by
    decide +kernel
  obtain ⟨hone, hdelete⟩ := one_standing_deleter none ops
  refine ⟨ops, hsecond, hthird, fun d hd hstands => ?_, hactive, hrefused, ?_⟩
  · exact hone ⟨0⟩ d 3 hd hthird hstands (.inr hcommitted)
  · exact (hdelete 4 ⟨0⟩).2.2 (by rw [hrefused]; simp)

end Store
end TableIndex
