import Mathlib.Tactic
import TableIndex.Index.KeyOrder
import TableIndex.Proofs.Value.Order

/-!
# The order of rows

Values, key columns, keys and places are all compared by total preorders. Two rows in the same place
agree in their key and both of their identities.
-/

namespace TableIndex

open Std

namespace KeyColumn

/-- Where the nulls of a column stand among its values. -/
def nullRank (c : KeyColumn) (v : Value) : Nat :=
  match v.isNull, c.nulls with
  | false, _ => 1
  | true, .first => 0
  | true, .last => 2

/-- The order of values in a column that compares no nulls. -/
def compareValues (c : KeyColumn) (a b : Value) : Ordering :=
  if c.isDescending then b.compare a else a.compare b

private theorem compare_eq (c : KeyColumn) (a b : Value) :
    c.compare a b = compareLex (compareOn c.nullRank) c.compareValues a b := by
  have hswap : (a.compare b).swap = b.compare a := OrientedCmp.eq_swap.symm
  have hnull : ∀ {v : Value}, v.isNull = true → v = .null := by
    intro v hv
    cases v <;> simp_all [Value.isNull]
  simp only [compareLex, compareOn, compare, compareValues, nullRank, nullOrder, hswap]
  cases ha : a.isNull <;> cases hb : b.isNull
  · rfl
  · cases c.nulls <;> rfl
  · cases c.nulls <;> rfl
  · rw [hnull ha, hnull hb]
    have hrefl : Value.compare .null .null = .eq := ReflCmp.compare_self
    rw [hrefl, ite_self]
    cases c.nulls <;> rfl

instance transCmp_compareValues (c : KeyColumn) : TransCmp c.compareValues := by
  unfold compareValues
  cases c.isDescending
  · exact inferInstanceAs (TransCmp Value.compare)
  · exact inferInstanceAs (TransCmp fun a b : Value => b.compare a)

instance transCmp_compare (c : KeyColumn) : TransCmp c.compare := by
  rw [show c.compare = compareLex (compareOn c.nullRank) c.compareValues from
    funext fun a => funext fun b => c.compare_eq a b]
  infer_instance

private theorem isNull_eq_of_compare {c : KeyColumn} {a b : Value} (h : c.compare a b = .eq) :
    a.isNull = b.isNull := by
  unfold compare nullOrder at h
  cases ha : a.isNull <;> cases hb : b.isNull
  · rfl
  · rw [ha, hb] at h
    cases hn : c.nulls <;> simp [hn] at h
  · rw [ha, hb] at h
    cases hn : c.nulls <;> simp [hn] at h
  · rfl

theorem compare_null (c : KeyColumn) {a b : Value} (ha : a.isNull = true) (hb : b.isNull = false) :
    c.compare a b = c.nullOrder := by
  simp only [compare, ha, hb]

theorem compare_eq_iff (c : KeyColumn) {a b : Value} :
    c.compare a b = .eq ↔ a.compare b = .eq := by
  by_cases hnull : a.isNull = b.isNull
  · cases ha : a.isNull with
    | true =>
        have hb : b.isNull = true := hnull ▸ ha
        cases a <;> cases b <;> simp_all [Value.isNull, Value.compare, compare]
    | false =>
        simp only [compare, ha, ← hnull]
        cases c.isDescending with
        | false => rfl
        | true => simp [Ordering.swap_eq_eq]
  · have hrank : a.compare b ≠ .eq := by
      cases a <;> cases b <;> simp_all [Value.isNull, Value.compare, Value.rank]
    exact iff_of_false (fun heq => hnull (isNull_eq_of_compare heq)) hrank

end KeyColumn

private theorem transCmp_comap {α β : Type} {cmp : β → β → Ordering} (h : TransCmp cmp)
    (f : α → β) : TransCmp fun a b => cmp (f a) (f b) where
  eq_swap := h.eq_swap
  isLE_trans := h.isLE_trans

namespace KeyOrder

variable {ρ : Type}

instance transCmp_compare (key : KeyOrder) (src : RowSource ρ) : TransCmp (key.compare src) := by
  induction key with
  | nil => exact { eq_swap := rfl, isLE_trans := fun _ _ => rfl }
  | cons c rest ih =>
      have := transCmp_comap c.transCmp_compare fun r => src.project r c.position
      exact inferInstanceAs (TransCmp (compareLex
        (fun a b => c.compare (src.project a c.position) (src.project b c.position))
        (compare rest src)))

instance transCmp_place (key : KeyOrder) (src : RowSource ρ) : TransCmp (key.place src) :=
  inferInstanceAs (TransCmp (compareLex (key.compare src)
    (compareLex (compareOn src.rowId) (compareOn src.versionId))))

/-- The order of two rows in an index is that of their keys, unless these are equal. -/
theorem compare_isLE_of_place {key : KeyOrder} {src : RowSource ρ} {a b : ρ}
    (h : (key.place src a b).isLE = true) : (key.compare src a b).isLE = true := by
  unfold place at h
  cases hk : key.compare src a b with
  | lt => rfl
  | eq => rfl
  | gt => simp [hk] at h

theorem compare_eq_iff {key : KeyOrder} {src : RowSource ρ} {a b : ρ} :
    key.compare src a b = .eq ↔
      ∀ c ∈ key, (src.project a c.position == src.project b c.position) = true := by
  induction key with
  | nil => simp [compare]
  | cons c rest ih =>
      rw [compare, Ordering.then_eq_eq, ih, List.forall_mem_cons, c.compare_eq_iff, ← beq_iff_eq]
      rfl

theorem compare_append (before after : KeyOrder) (src : RowSource ρ) (a b : ρ) :
    compare (before ++ after) src a b = (before.compare src a b).then (after.compare src a b) := by
  induction before with
  | nil => rfl
  | cons c rest ih => rw [List.cons_append, compare, compare, ih, Ordering.then_assoc]

/-- Rows with equal keys have their nulls in the same columns. -/
theorem hasNull_eq_of_compare {key : KeyOrder} {src : RowSource ρ} {a b : ρ}
    (h : key.compare src a b = .eq) : key.hasNull src a = key.hasNull src b := by
  induction key with
  | nil => rfl
  | cons c rest ih =>
      rw [compare, Ordering.then_eq_eq] at h
      simp only [hasNull, List.any_cons] at ih ⊢
      rw [KeyColumn.isNull_eq_of_compare h.1, ih h.2]

theorem compareTo_take (key : KeyOrder) (src : RowSource ρ) (a : ρ) (wanted : List Value)
    (count : Nat) :
    key.compareTo src a (wanted.take count) (min count wanted.length) =
      key.compareTo src a wanted count := by
  have hzip : (key.zip (wanted.take count)).take (min count wanted.length) =
      (key.zip wanted).take count := by
    induction key generalizing wanted count with
    | nil => simp
    | cons c rest ih =>
        cases wanted with
        | nil => simp
        | cons w wanted =>
            cases count with
            | zero => simp
            | succ count => simp [ih, Nat.add_min_add_right]
  rw [compareTo, compareTo, hzip]

/-- Along the order of the keys, the order of a row to a search key never goes back. -/
theorem compareTo_mono {key : KeyOrder} {src : RowSource ρ} {a b : ρ}
    (h : (key.compare src a b).isLE = true) (wanted : List Value) (count : Nat) :
    (key.compareTo src a wanted count = .gt → key.compareTo src b wanted count = .gt) ∧
      (key.compareTo src b wanted count = .lt → key.compareTo src a wanted count = .lt) := by
  induction key generalizing wanted count with
  | nil => simp [compareTo, comparePrefix]
  | cons c rest ih =>
      cases wanted with
      | nil => simp [compareTo, comparePrefix]
      | cons w wanted =>
          cases count with
          | zero => simp [compareTo, comparePrefix]
          | succ count =>
              have hstep : ∀ r, compareTo (c :: rest) src r (w :: wanted) (count + 1) =
                  (c.compare (src.project r c.position) w).then
                    (compareTo rest src r wanted count) := fun _ => rfl
              rw [compare] at h
              rw [hstep, hstep]
              cases hc : c.compare (src.project a c.position) (src.project b c.position) with
              | lt =>
                  -- the column decides, since at most one of the two rows is level with `w` in it
                  have hlt : (c.compare (src.project b c.position) w).isLE = true →
                      c.compare (src.project a c.position) w = .lt :=
                    TransCmp.lt_of_lt_of_isLE hc
                  cases hb : c.compare (src.project b c.position) w with
                  | lt => simp [hlt (by rw [hb]; rfl)]
                  | eq => simp [hlt (by rw [hb]; rfl)]
                  | gt => simp
              | eq =>
                  rw [hc] at h
                  rw [TransCmp.congr_left hc]
                  obtain ⟨hgt, hlt⟩ := ih h wanted count
                  cases c.compare (src.project b c.position) w with
                  | lt => simp
                  | eq => exact ⟨hgt, hlt⟩
                  | gt => simp
              | gt =>
                  rw [hc] at h
                  cases h

theorem compare_congr (key : KeyOrder) {src src' : RowSource ρ} {a b : ρ}
    (ha : src'.project a = src.project a) (hb : src'.project b = src.project b) :
    key.compare src' a b = key.compare src a b := by
  induction key with
  | nil => rfl
  | cons c rest ih => rw [compare, compare, ha, hb, ih]

theorem compareTo_congr (key : KeyOrder) {src src' : RowSource ρ} {a : ρ}
    (ha : src'.project a = src.project a) (wanted : List Value) (count : Nat) :
    key.compareTo src' a wanted count = key.compareTo src a wanted count := by
  have hprefix : ∀ l : List (KeyColumn × Value),
      comparePrefix src' a l = comparePrefix src a l := by
    intro l
    induction l with
    | nil => rfl
    | cons e l ih => rw [comparePrefix, comparePrefix, ha, ih]
  exact hprefix _

theorem hasNull_congr (key : KeyOrder) {src src' : RowSource ρ} {a : ρ}
    (ha : src'.project a = src.project a) : key.hasNull src' a = key.hasNull src a := by
  rw [hasNull, hasNull, ha]

theorem place_congr (key : KeyOrder) {src src' : RowSource ρ} {a b : ρ}
    (ha : src'.project a = src.project a) (hb : src'.project b = src.project b)
    (hra : src'.rowId a = src.rowId a) (hrb : src'.rowId b = src.rowId b)
    (hva : src'.versionId a = src.versionId a) (hvb : src'.versionId b = src.versionId b) :
    key.place src' a b = key.place src a b := by
  rw [place, place, compare_congr key ha hb, hra, hrb, hva, hvb]

end KeyOrder
end TableIndex
