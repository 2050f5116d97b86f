import TableIndex.Proofs.Index.SortedSet

/-!
# Places

The place of a row in an index is settled by its key, then by its two identities. Whatever columns
make up the key, this is a total order; nulls stand at the end of their column that its placement
names; and along the order the answer to a search key goes up only, so a search key cuts a listing
into the rows below it, those that match it and those above it.
-/

namespace TableIndex.KeyOrder

open Std

variable {ρ : Type}

private theorem compare_of_null {before after : KeyOrder} {c : KeyColumn} {src : RowSource ρ}
    {a b : ρ} (hbefore : before.compare src a b = .eq)
    (ha : (src.project a c.position).isNull = true)
    (hb : (src.project b c.position).isNull = false) :
    compare (before ++ c :: after) src a b = c.nullOrder := by
  rw [compare_append, hbefore, Ordering.eq_then, compare, c.compare_null ha hb]
  cases hnulls : c.nulls with
  | first => simp [KeyColumn.nullOrder, hnulls]
  | last => simp [KeyColumn.nullOrder, hnulls]

private theorem compareTo_isLE_of_place {key : KeyOrder} {src : RowSource ρ} {a b : ρ}
    (h : key.place src a b ≠ .gt) (wanted : List Value) (count : Nat) :
    Ord.compare (key.compareTo src a wanted count) (key.compareTo src b wanted count) ≠ .gt := by
  have hkeys := compare_isLE_of_place (Ordering.isLE_iff_ne_gt.mpr h)
  obtain ⟨hgt, hlt⟩ := compareTo_mono hkeys wanted count
  cases ha : key.compareTo src a wanted count with
  | lt => cases key.compareTo src b wanted count <;> decide
  | eq =>
      cases hb : key.compareTo src b wanted count with
      | lt => cases ha.symm.trans (hlt hb)
      | eq => decide
      | gt => decide
  | gt =>
      rw [hgt ha]
      decide

private theorem eq_nil_of_lower {key : KeyOrder} {src : RowSource ρ} {r : ρ} {rows : List ρ}
    {wanted : List Value} {count : Nat} {answer : Ordering} (hmono : ∀ u ∈ rows,
      Ord.compare (key.compareTo src r wanted count) (key.compareTo src u wanted count) ≠ .gt)
    (hrows : ∀ u ∈ rows, key.compareTo src u wanted count = answer)
    (hlower : Ord.compare (key.compareTo src r wanted count) answer = .gt) : rows = [] := by
  refine List.eq_nil_iff_forall_not_mem.mpr fun u hu => ?_
  have hle := hmono u hu
  rw [hrows u hu] at hle
  exact hle hlower

private theorem exists_blocks {key : KeyOrder} {src : RowSource ρ} {rows : List ρ}
    (h : rows.Pairwise fun a b => key.place src a b ≠ .gt) (wanted : List Value) (count : Nat) :
    ∃ below level above, rows = below ++ level ++ above ∧
      (∀ r ∈ below, key.compareTo src r wanted count = .lt) ∧
      (∀ r ∈ level, key.compareTo src r wanted count = .eq) ∧
      ∀ r ∈ above, key.compareTo src r wanted count = .gt := by
  induction rows with
  | nil => exact ⟨[], [], [], by simp⟩
  | cons r rows ih =>
      obtain ⟨hfirst, hrest⟩ := List.pairwise_cons.mp h
      obtain ⟨below, level, above, rfl, hbelow, hlevel, habove⟩ := ih hrest
      have hmono : ∀ u ∈ below ++ level ++ above,
          Ord.compare (key.compareTo src r wanted count) (key.compareTo src u wanted count) ≠ .gt :=
        fun u hu => compareTo_isLE_of_place (hfirst u hu) wanted count
      cases hr : key.compareTo src r wanted count with
      | lt => exact ⟨r :: below, level, above, rfl, by simpa [hr] using hbelow, hlevel, habove⟩
      | eq =>
          obtain rfl : below = [] :=
            eq_nil_of_lower (fun u hu => hmono u (by simp [hu])) hbelow (by rw [hr]; rfl)
          exact ⟨[], r :: level, above, rfl, by simp, by simpa [hr] using hlevel, habove⟩
      | gt =>
          obtain rfl : below = [] :=
            eq_nil_of_lower (fun u hu => hmono u (by simp [hu])) hbelow (by rw [hr]; rfl)
          obtain rfl : level = [] :=
            eq_nil_of_lower (fun u hu => hmono u (by simp [hu])) hlevel (by rw [hr]; rfl)
          exact ⟨[], [], r :: above, rfl, by simp, by simp, by simpa [hr] using habove⟩

/-- Rows are placed in a total order, with the nulls of a column together at one end and with the
answers to a search key in consecutive blocks. -/
structure Lawful (key : KeyOrder) (src : RowSource ρ) : Prop where
  compare_swap : ∀ a b, key.compare src b a = (key.compare src a b).swap
  compare_trans : ∀ a b c, key.compare src a b ≠ .gt → key.compare src b c ≠ .gt →
    key.compare src a c ≠ .gt
  nulls : ∀ (before : KeyOrder) c after a b, key = before ++ c :: after →
    before.compare src a b = .eq → (src.project a c.position).isNull = true →
    (src.project b c.position).isNull = false →
      (c.nulls = .first → key.compare src a b = .lt) ∧
      (c.nulls = .last → key.compare src a b = .gt)
  place_swap : ∀ a b, key.place src b a = (key.place src a b).swap
  place_trans : ∀ a b c, key.place src a b ≠ .gt → key.place src b c ≠ .gt →
    key.place src a c ≠ .gt
  place_eq : ∀ a b, key.place src a b = .eq ↔
    (∀ c ∈ key, (src.project a c.position == src.project b c.position) = true) ∧
      src.rowId a = src.rowId b ∧ src.versionId a = src.versionId b
  mono : ∀ a b, key.place src a b ≠ .gt → ∀ wanted count,
    Ord.compare (key.compareTo src a wanted count) (key.compareTo src b wanted count) ≠ .gt
  blocks : ∀ rows : List ρ, rows.Pairwise (fun a b => key.place src a b ≠ .gt) → ∀ wanted count,
    ∃ below level above, rows = below ++ level ++ above ∧
      (∀ r ∈ below, key.compareTo src r wanted count = .lt) ∧
      (∀ r ∈ level, key.compareTo src r wanted count = .eq) ∧
      ∀ r ∈ above, key.compareTo src r wanted count = .gt

private theorem ne_gt_trans {cmp : ρ → ρ → Ordering} [TransCmp cmp] {a b c : ρ}
    (hab : cmp a b ≠ .gt) (hbc : cmp b c ≠ .gt) : cmp a c ≠ .gt :=
  Ordering.isLE_iff_ne_gt.mp (TransCmp.isLE_trans (Ordering.isLE_iff_ne_gt.mpr hab)
    (Ordering.isLE_iff_ne_gt.mpr hbc))

/-- Every key orders the rows of every source in this way. -/
theorem lawful (key : KeyOrder) (src : RowSource ρ) : key.Lawful src where
  compare_swap _ _ := OrientedCmp.eq_swap
  compare_trans _ _ _ := ne_gt_trans
  nulls := by
    rintro before c after a b rfl hbefore ha hb
    rw [compare_of_null hbefore ha hb, KeyColumn.nullOrder]
    constructor
    · intro hfirst
      rw [hfirst]
    · intro hlast
      rw [hlast]
  place_swap _ _ := OrientedCmp.eq_swap
  place_trans _ _ _ := ne_gt_trans
  place_eq a b := by rw [place_eq_iff, Same, compare_eq_iff]
  mono _ _ := compareTo_isLE_of_place
  blocks _ := exists_blocks

/-- Nulls come first in a descending column too, and a row below in the first column comes later. -/
example :
    let key : KeyOrder := [⟨0, .descending, .first⟩, ⟨1, .ascending, .last⟩]
    let place (a b : List Value) := key.place (.committed none) ⟨1, ⟨a⟩⟩ ⟨1, ⟨b⟩⟩
    place [.null, .integer 1] [.integer 5, .integer 1] = .lt ∧
      place [.integer 4, .integer 1] [.integer 5, .integer 1] = .gt ∧
      place [.integer 5, .null] [.integer 5, .integer 1] = .gt := by
  decide

end TableIndex.KeyOrder
