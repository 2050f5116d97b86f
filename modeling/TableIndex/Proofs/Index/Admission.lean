import TableIndex.Proofs.Index.SortedSet

/-!
# Unique keys

Rows with equal keys stand together whatever the directions of the columns are and wherever their
nulls stand, so the search for the rows that hold the key of a new one misses none of them. A unique
index therefore refuses a row exactly if one of them counts.
-/

namespace TableIndex

open Std

variable {ρ : Type}

namespace KeyOrder

variable {key : KeyOrder} {src src' : RowSource ρ} {a b : ρ}

/-- The rows have equal values in every key column, and nulls in none. -/
def Clash (key : KeyOrder) (src : RowSource ρ) (a b : ρ) : Prop :=
  ∀ c ∈ key, (src.project a c.position).compare (src.project b c.position) = .eq ∧
    (src.project b c.position).isNull = false

private theorem clash_iff :
    key.Clash src a b ↔ key.compare src a b = .eq ∧ key.hasNull src b = false := by
  induction key with
  | nil => simp [Clash, compare, hasNull]
  | cons c rest ih =>
      have hcons : Clash (c :: rest) src a b ↔
          ((src.project a c.position).compare (src.project b c.position) = .eq ∧
            (src.project b c.position).isNull = false) ∧ Clash rest src a b :=
        List.forall_mem_cons
      have hnull : hasNull (c :: rest) src b =
          ((src.project b c.position).isNull || hasNull rest src b) := rfl
      rw [hcons, ih, compare, Ordering.then_eq_eq, hnull, Bool.or_eq_false_iff]
      cases hb : (src.project b c.position).isNull with
      | true => simp
      | false => simp [c.compare_eq_iff, and_assoc]

private theorem Clash.symm (h : key.Clash src a b) : key.Clash src b a := by
  rw [clash_iff] at h ⊢
  exact ⟨OrientedCmp.eq_symm h.1, (hasNull_eq_of_compare h.1).trans h.2⟩

private theorem clash_congr (ha : src'.project a = src.project a)
    (hb : src'.project b = src.project b) :
    key.Clash src' a b ↔ key.Clash src a b := by
  rw [Clash, Clash, ha, hb]

end KeyOrder

namespace Index

variable {x : Index ρ} {src : RowSource ρ} {config : Config} {S : Set ρ} {writer : Option Viewer}
  {row : ρ}

/-- Some row that counts against the writer has the key of `row`. -/
def Claimed (config : Config) (src : RowSource ρ) (S : Set ρ) (writer : Option Viewer) (row : ρ) :
    Prop :=
  ∃ r ∈ S, config.key.Clash src r row ∧ ∀ viewer, writer = some viewer → src.claims viewer r = true

private theorem counts_iff {r : ρ} :
    counts src writer r = true ↔ ∀ viewer, writer = some viewer → src.claims viewer r = true := by
  cases writer <;> simp [counts]

private theorem refuses_iff {rows : List ρ} (hunique : x.config.isUnique = true)
    (hmem : ∀ r, r ∈ rows ↔ r ∈ S) :
    x.Refuses src rows writer row ↔ Claimed x.config src S writer row := by
  simp only [Refuses, Claimed, hunique, true_and, KeyOrder.clash_iff, counts_iff, hmem, key]
  constructor
  · rintro ⟨hnull, r, hr, heq, hcounts⟩
    exact ⟨r, hr, ⟨heq, hnull⟩, hcounts⟩
  · rintro ⟨r, hr, ⟨heq, hnull⟩, hcounts⟩
    exact ⟨hnull, r, hr, heq, hcounts⟩

private theorem distinct_insert (hdistinct : ∀ a ∈ S, ∀ b ∈ S, config.key.Clash src a b → a = b)
    (hfree : ¬Claimed config src S none row) :
    ∀ a ∈ S ∪ {row}, ∀ b ∈ S ∪ {row}, config.key.Clash src a b → a = b := by
  have hnone : ∀ r ∈ S, ¬config.key.Clash src r row :=
    fun r hr hclash => hfree ⟨r, hr, hclash, by simp⟩
  -- equal keys are symmetric, so the new row clashes with none on either side
  rintro a (ha | rfl) b (hb | rfl) hclash
  · exact hdistinct a ha b hb hclash
  · exact absurd hclash (hnone a ha)
  · exact absurd hclash.symm (hnone b hb)
  · rfl

variable [Inhabited ρ]

private theorem Built.insert_cases (h : Built config src x S) (hunique : config.isUnique = true)
    (writer : Option Viewer) (hfresh : ∀ r ∈ S, ¬config.key.Same src r row) (grants : Allocator) :
    (Claimed config src S writer row ∧ x.insert src writer row grants =
        .ok (.error (.duplicateKey config.name (config.key.keyOf src row).render), x)) ∨
      ¬Claimed config src S writer row ∧
        ((∃ requested limit, x.tree.Full grants requested limit ∧
            x.insert src writer row grants = .ok (.error (.full requested limit), x)) ∨
          ∃ x', x.insert src writer row grants = .ok (.ok true, x')) := by
  obtain ⟨rfl, rows, hlists, hmem⟩ := h.lists
  rw [← refuses_iff hunique hmem]
  rcases Index.insert_cases hlists writer row grants with ⟨⟨r, hr, heq⟩, -⟩ | ⟨-, hcases⟩
  · exact absurd (KeyOrder.place_eq_iff.mp heq) (hfresh r ((hmem r).mp hr))
  · rcases hcases with hrefused | ⟨hadmitted, hfull | ⟨tree, -, -, hrun, -⟩⟩
    · exact .inl hrefused
    · exact .inr ⟨hadmitted, .inl hfull⟩
    · exact .inr ⟨hadmitted, .inr ⟨_, hrun⟩⟩

/-- What becomes of a row that none keeps from the index: it is added unless the tree is full. -/
inductive Adds (config : Config) (src : RowSource ρ) (x : Index ρ) (S : Set ρ) (row : ρ)
    (grants : Allocator) : Except Error Bool × Index ρ → Prop
  | added {x' : Index ρ} (built : Built config src x' (S ∪ {row})) :
      Adds config src x S row grants (.ok true, x')
  | full {requested limit : Nat} (full : x.tree.Full grants requested limit) :
      Adds config src x S row grants (.error (.full requested limit), x)

/-- The index has come about by insertions without a writer, deletions and clears. The source may
change, but it answers alike for the rows in the index. -/
inductive Plain (config : Config) : RowSource ρ → Index ρ → Prop
  | create {src : RowSource ρ} {columns : Option Nat} {x : Index ρ} :
      Index.create config columns = .ok x → Plain config src x
  | inserted {src : RowSource ρ} {x x' : Index ρ} {row : ρ} {grants : Allocator}
      {answer : Except Error Bool} :
      Plain config src x → x.insert src none row grants = .ok (answer, x') → Plain config src x'
  | deleted {src : RowSource ρ} {x x' : Index ρ} {row : ρ} {found : Bool} :
      Plain config src x → x.delete src row = .ok (found, x') → Plain config src x'
  | cleared {src : RowSource ρ} {x : Index ρ} : Plain config src x → Plain config src x.clear
  | changed {src src' : RowSource ρ} {x : Index ρ} :
      Plain config src x →
      (∀ r, x.Holds r → src'.project r = src.project r ∧ src'.rowId r = src.rowId r ∧
        src'.versionId r = src.versionId r) → Plain config src' x

private theorem Plain.distinct (h : Plain config src x) (hunique : config.isUnique = true) :
    ∃ S, Built config src x S ∧ ∀ a ∈ S, ∀ b ∈ S, config.key.Clash src a b → a = b := by
  induction h with
  | create hcreate => exact ⟨∅, .create hcreate, by simp⟩
  | @inserted src x x' row grants answer _ hrun ih =>
      obtain ⟨S, hbuilt, hdistinct⟩ := ih
      by_cases hadded : answer = .ok true
      · subst hadded
        refine ⟨_, hbuilt.added hrun, distinct_insert hdistinct fun hclaimed => ?_⟩
        obtain ⟨rfl, rows, hlists, hmem⟩ := hbuilt.lists
        rcases Index.insert_cases hlists none row grants with ⟨-, hfound⟩ |
          ⟨-, ⟨-, hrefused⟩ | ⟨hadmitted, -⟩⟩
        · simp [hfound] at hrun
        · simp [hrefused] at hrun
        · exact hadmitted ((refuses_iff hunique hmem).mpr hclaimed)
      · exact ⟨S, hbuilt.kept hrun hadded, hdistinct⟩
  | deleted _ hrun ih =>
      obtain ⟨S, hbuilt, hdistinct⟩ := ih
      exact ⟨_, hbuilt.deleted hrun, fun a ha b hb => hdistinct a ha.1 b hb.1⟩
  | cleared _ ih =>
      obtain ⟨S, hbuilt, -⟩ := ih
      exact ⟨∅, hbuilt.cleared, by simp⟩
  | changed _ hsame ih =>
      obtain ⟨S, hbuilt, hdistinct⟩ := ih
      obtain ⟨-, rows, hlists, hmem⟩ := hbuilt.lists
      have hsame' : ∀ r ∈ S, _ := fun r hr => hsame r (hlists.holds ((hmem r).mpr hr))
      refine ⟨S, hbuilt.changed hsame', fun a ha b hb hclash => hdistinct a ha b hb ?_⟩
      exact (KeyOrder.clash_congr (hsame' a ha).1 (hsame' b hb).1).mp hclash

/-- A unique index refuses a row that it does not hold exactly if some row that counts, anywhere
among those that it holds, has the same values in all key columns and none of them is null. It is
then left as it was, and otherwise the row is added while there is room. Where every row counts
against every insertion, no two rows of the index ever have the same key. -/
theorem unique_admission (hunique : config.isUnique = true) :
    (∀ {src : RowSource ρ} {x : Index ρ} {S : Set ρ}, Built config src x S →
      ∀ writer row, (∀ r ∈ S, ¬config.key.Same src r row) →
        (Claimed config src S writer row → ∀ grants, x.insert src writer row grants =
          .ok (.error (.duplicateKey config.name (config.key.keyOf src row).render), x)) ∧
        (¬Claimed config src S writer row →
          (x.size < maxSlots → ∃ x', x.insert src writer row = .ok (.ok true, x') ∧
            Built config src x' (S ∪ {row})) ∧
          ∀ grants, ∃ answer, x.insert src writer row grants = .ok answer ∧
            Adds config src x S row grants answer)) ∧
      ∀ {src : RowSource ρ} {x : Index ρ}, Plain config src x →
        ∃ S, Built config src x S ∧ ∀ a ∈ S, ∀ b ∈ S, config.key.Clash src a b → a = b := by
  refine ⟨fun {src x S} hbuilt writer row hfresh => ?_, fun hplain => hplain.distinct hunique⟩
  have hcases := hbuilt.insert_cases hunique writer hfresh
  refine ⟨fun hclaimed grants => ?_, fun hfree => ⟨fun hroom => ?_, fun grants => ?_⟩⟩
  · rcases hcases grants with ⟨-, hrefused⟩ | ⟨hfree, -⟩
    · exact hrefused
    · exact absurd hclaimed hfree
  · rcases hcases .addressable with ⟨hclaimed, -⟩ | ⟨-, ⟨_, _, hfull, -⟩ | ⟨x', hadded⟩⟩
    · exact absurd hclaimed hfree
    · exact absurd hroom (Nat.not_lt.mpr hfull.maxSlots_le)
    · exact ⟨x', hadded, hbuilt.added hadded⟩
  · rcases hcases grants with ⟨hclaimed, -⟩ | ⟨-, ⟨_, _, hfull, hrun⟩ | ⟨x', hadded⟩⟩
    · exact absurd hclaimed hfree
    · exact ⟨_, hrun, .full hfull⟩
    · exact ⟨_, hadded, .added (hbuilt.added hadded)⟩

/-- Of two rows with one key the second counts, and refuses a third; a row with a null is added. -/
theorem unique_admission_second :
    ∃ (config : Config) (src : RowSource NumberedRow) (x : Index NumberedRow)
      (S : Set NumberedRow), config.isUnique = true ∧ Built config src x S ∧
      src.claims default ⟨1, ⟨[.boolean true]⟩⟩ = false ∧
      (∀ r ∈ S, ¬config.key.Same src r ⟨3, ⟨[.boolean true]⟩⟩) ∧
      Claimed config src S (some default) ⟨3, ⟨[.boolean true]⟩⟩ ∧
      x.insert src (some default) ⟨3, ⟨[.boolean true]⟩⟩ =
        .ok (.error (.duplicateKey "flags"
          (config.key.keyOf src ⟨3, ⟨[.boolean true]⟩⟩).render), x) ∧
      ∃ y : Index NumberedRow, Plain config src y ∧ y.size = 2 ∧
        ∃ S, Built config src y S ∧ ∀ a ∈ S, ∀ b ∈ S, config.key.Clash src a b → a = b := by
  let src : RowSource NumberedRow :=
    { RowSource.committed none with claims := fun _ row => row.rowId != 1 }
  have hcreate : create ⟨"flags", 0, [⟨0, .descending, .last⟩], true, false, false, false⟩ none =
      Except.ok (⟨_, .empty⟩ : Index NumberedRow) := rfl
  have h₀ : Built _ src _ _ := .create hcreate
  have h₁ := h₀.added
    (show insert _ _ (some default) ⟨1, ⟨[.boolean true]⟩⟩ = .ok (.ok true, _) from rfl)
  have h₂ := h₁.added
    (show insert _ _ (some default) ⟨2, ⟨[.boolean true]⟩⟩ = .ok (.ok true, _) from rfl)
  have hp₀ : Plain _ src _ := .create hcreate
  have hp₁ := hp₀.inserted
    (show insert _ _ none ⟨1, ⟨[.boolean true]⟩⟩ = .ok (.ok true, _) from rfl)
  have hp₂ := hp₁.inserted (show insert _ _ none ⟨2, ⟨[.null]⟩⟩ = .ok (.ok true, _) from rfl)
  have hfresh : ∀ r ∈ (∅ ∪ {⟨1, ⟨[.boolean true]⟩⟩} ∪ {⟨2, ⟨[.boolean true]⟩⟩} : Set NumberedRow),
      ¬KeyOrder.Same [⟨0, .descending, .last⟩] src r ⟨3, ⟨[.boolean true]⟩⟩ := by
    intro r hr hsame
    rcases hr with (hnone | rfl) | rfl
    · exact hnone
    · exact absurd hsame.2.1 (by decide)
    · exact absurd hsame.2.1 (by decide)
  have hclaimed : Claimed ⟨"flags", 0, [⟨0, .descending, .last⟩], true, false, false, false⟩ src
      (∅ ∪ {⟨1, ⟨[.boolean true]⟩⟩} ∪ {⟨2, ⟨[.boolean true]⟩⟩}) (some default)
      ⟨3, ⟨[.boolean true]⟩⟩ := by
    refine ⟨⟨2, ⟨[.boolean true]⟩⟩, by simp, ?_, ?_⟩
    · rintro c (_ | ⟨_, ⟨⟩⟩)
      exact ⟨rfl, rfl⟩
    · rintro _ ⟨⟩
      rfl
  exact ⟨_, src, _, _, rfl, h₂, rfl, hfresh, hclaimed,
    ((unique_admission rfl).1 h₂ _ _ hfresh).1 hclaimed _, _, hp₂, rfl,
    (unique_admission rfl).2 hp₂⟩

end Index
end TableIndex
