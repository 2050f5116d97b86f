import TableIndex.Proofs.Slot.Arena
import TableIndex.Slot.Column

/-!
# What columns hold

A column gives a datum for every slot, the empty one for a slot that nothing was written to. Growth
changes none of them.
-/

namespace TableIndex

namespace Slot

variable {α : Type}

theorem fetch_of_lt {cells : Array α} {s : Slot} (h : s < cells.size) (empty : α) :
    fetch cells (some s) = .ok (cells[s]?.getD empty) := by
  simp [fetch, h]

theorem swap_of_lt {cells : Array α} {s : Slot} (h : s < cells.size) (a empty : α) :
    swap cells (some s) a = .ok (cells[s]?.getD empty, cells.setIfInBounds s a) := by
  simp [swap, h]

theorem getD_setIfInBounds {cells : Array α} {s : Slot} (h : s < cells.size) (a empty : α)
    (u : Slot) :
    (cells.setIfInBounds s a)[u]?.getD empty = if u = s then a else cells[u]?.getD empty := by
  by_cases hu : u = s
  · subst hu
    rw [if_pos rfl, Array.getElem?_setIfInBounds_self_of_lt h]
    rfl
  · rw [if_neg hu, Array.getElem?_setIfInBounds_ne (Ne.symm hu)]

theorem extend_cases (cells : Array α) (empty : α) (capacity : Nat) (granted : Bool) :
    (extend cells empty capacity granted = .error (.full capacity cells.size) ∧ granted = false ∧
        cells.size < capacity) ∨
      ∃ cells', extend cells empty capacity granted = .ok cells' ∧
        cells'.size = max cells.size capacity ∧
        (∀ u : Slot, cells'[u]?.getD empty = cells[u]?.getD empty) ∧
        (cells.size < capacity → granted = true) := by
  cases hrun : extend cells empty capacity granted with
  | error e =>
      obtain ⟨rfl, hrefused, hlt⟩ := extend_eq_error_iff.mp hrun
      exact .inl ⟨rfl, hrefused, hlt⟩
  | ok cells' =>
      obtain ⟨hsize, hkept, hfresh⟩ := extend_eq_ok hrun
      refine .inr ⟨cells', rfl, hsize, fun u => ?_, fun hlt => ?_⟩
      · by_cases hu : u < cells.size
        · rw [hkept u hu]
        · have hbeyond := Nat.le_of_not_lt hu
          rw [Array.getElem?_eq_none hbeyond]
          by_cases hnew : u < cells'.size
          · rw [hfresh u hbeyond hnew]
            rfl
          · rw [Array.getElem?_eq_none (Nat.le_of_not_lt hnew)]
      · by_contra hrefused
        have herror : extend cells empty capacity granted = _ :=
          extend_eq_error_iff.mpr ⟨rfl, Bool.eq_false_iff.mpr hrefused, hlt⟩
        rw [hrun] at herror
        cases herror

end Slot

namespace Column

variable {ρ : Type}

/-- The datum in a slot, the empty one beyond the cells. -/
def datum (c : Column ρ) (s : Slot) : Option (Datum ρ) :=
  match c with
  | references cells => (cells[s]?.getD none).map .reference
  | int32s cells => some (.int32 (cells[s]?.getD 0))
  | int64s cells => some (.int64 (cells[s]?.getD 0))

/-- What an empty cell holds. -/
def empty : Representation → Option (Datum ρ)
  | .reference => none
  | .int32 => some (.int32 0)
  | .int64 => some (.int64 0)

/-- The column is `c` with one datum changed. -/
structure Changes (c c' : Column ρ) (s : Slot) (d : Option (Datum ρ)) : Prop where
  representation : c'.representation = c.representation
  capacity : c'.capacity = c.capacity
  datum : ∀ u, c'.datum u = if u = s then d else c.datum u

/-- One way to store data: what a column is made of, and what its cells show. -/
private structure Form (ρ β : Type) where
  column : Array β → Column ρ
  blank : β
  shown : β → Option (Datum ρ)
  capacity_column : ∀ cells, (column cells).capacity = cells.size
  representation_column :
    ∀ cells cells', (column cells).representation = (column cells').representation
  datum_column : ∀ cells s, (column cells).datum s = shown (cells[s]?.getD blank)

namespace Form

private def references : Form ρ (Option ρ) where
  column := .references
  blank := none
  shown := Option.map .reference
  capacity_column _ := rfl
  representation_column _ _ := rfl
  datum_column _ _ := rfl

private def int32s : Form ρ Int32 where
  column := .int32s
  blank := 0
  shown n := some (.int32 n)
  capacity_column _ := rfl
  representation_column _ _ := rfl
  datum_column _ _ := rfl

private def int64s : Form ρ Int64 where
  column := .int64s
  blank := 0
  shown n := some (.int64 n)
  capacity_column _ := rfl
  representation_column _ _ := rfl
  datum_column _ _ := rfl

variable {β : Type} (F : Form ρ β) {cells : Array β} {s : Slot}

private theorem fetch_eq (h : s < cells.size) :
    (do return F.shown (← Slot.fetch cells (some s)) : Checked _) =
      .ok ((F.column cells).datum s) := by
  rw [Slot.fetch_of_lt h F.blank, F.datum_column]
  rfl

private theorem swap_eq (h : s < cells.size) (a : β) :
    ∃ c', (do
        let (old, cells) ← Slot.swap cells (some s) a
        return (F.shown old, F.column cells) : Checked _) = .ok ((F.column cells).datum s, c') ∧
      (F.column cells).Changes c' s (F.shown a) := by
  refine ⟨F.column (cells.setIfInBounds s a), ?_, F.representation_column _ _, ?_, fun u => ?_⟩
  · rw [Slot.swap_of_lt h a F.blank, F.datum_column]
    rfl
  · rw [F.capacity_column, F.capacity_column, Array.size_setIfInBounds]
  · rw [F.datum_column, F.datum_column, Slot.getD_setIfInBounds h, apply_ite F.shown]

end Form

theorem read_eq {c : Column ρ} {s : Slot} (h : s < c.capacity) :
    c.read (some s) = .ok (c.datum s) := by
  cases c with
  | references cells => exact Form.references.fetch_eq h
  | int32s cells => exact Form.int32s.fetch_eq h
  | int64s cells => exact Form.int64s.fetch_eq h

theorem write_eq {c : Column ρ} {s : Slot} (h : s < c.capacity) {d : Datum ρ}
    (hd : d.representation = c.representation) :
    ∃ c', c.write (some s) d = .ok (c.datum s, c') ∧ c.Changes c' s (some d) := by
  cases c with
  | references cells =>
      cases d with
      | reference r => exact Form.references.swap_eq h (some r)
      | int32 n => cases hd
      | int64 n => cases hd
  | int32s cells =>
      cases d with
      | reference r => cases hd
      | int32 n => exact Form.int32s.swap_eq h n
      | int64 n => cases hd
  | int64s cells =>
      cases d with
      | reference r => cases hd
      | int32 n => cases hd
      | int64 n => exact Form.int64s.swap_eq h n

theorem take_eq {c : Column ρ} {s : Slot} (h : s < c.capacity) :
    ∃ c', c.take (some s) = .ok (c.datum s, c') ∧ c.Changes c' s (empty c.representation) := by
  cases c with
  | references cells => exact Form.references.swap_eq h none
  | int32s cells => exact Form.int32s.swap_eq h 0
  | int64s cells => exact Form.int64s.swap_eq h 0

theorem holds_eq [DecidableEq ρ] {c : Column ρ} {s : Slot} (h : s < c.capacity) (d : Datum ρ) :
    ∃ b, c.holds (some s) d = .ok b ∧ (b = true ↔ c.datum s = some d) := by
  cases c with
  | references cells =>
      cases d with
      | reference r => exact ⟨_, by simp [holds, Slot.fetch_of_lt h none]; rfl, by simp [datum]⟩
      | int32 n => exact ⟨false, rfl, by simp [datum]⟩
      | int64 n => exact ⟨false, rfl, by simp [datum]⟩
  | int32s cells =>
      cases d with
      | reference r => exact ⟨false, rfl, by simp [datum]⟩
      | int32 n => exact ⟨_, by simp [holds, Slot.fetch_of_lt h 0]; rfl, by simp [datum]⟩
      | int64 n => exact ⟨false, rfl, by simp [datum]⟩
  | int64s cells =>
      cases d with
      | reference r => exact ⟨false, rfl, by simp [datum]⟩
      | int32 n => exact ⟨false, rfl, by simp [datum]⟩
      | int64 n => exact ⟨_, by simp [holds, Slot.fetch_of_lt h 0]; rfl, by simp [datum]⟩

theorem ofCapacity_eq (r : Representation) (capacity : Nat) :
    (ofCapacity r capacity : Column ρ).representation = r ∧
      (ofCapacity r capacity : Column ρ).capacity = capacity := by
  cases r <;> simp [ofCapacity, representation, Column.capacity]

theorem datum_ofCapacity (r : Representation) (capacity : Nat) (s : Slot) :
    (ofCapacity r capacity : Column ρ).datum s = empty r := by
  cases r <;> simp only [ofCapacity, datum, empty, Array.getElem?_replicate] <;> split <;> rfl

theorem clear_eq_ofCapacity (c : Column ρ) : c.clear = ofCapacity c.representation c.capacity := by
  cases c <;> simp [clear, ofCapacity, representation, Column.capacity, Array.map_const']

theorem clear_eq (c : Column ρ) :
    c.clear.representation = c.representation ∧ c.clear.capacity = c.capacity ∧
      ∀ s, c.clear.datum s = empty c.representation := by
  rw [clear_eq_ofCapacity]
  exact ⟨(ofCapacity_eq _ _).1, (ofCapacity_eq _ _).2, datum_ofCapacity _ _⟩

/-- A column with more space, perhaps, that holds what `c` does. -/
structure Grows (c c' : Column ρ) : Prop where
  representation : c'.representation = c.representation
  capacity : c.capacity ≤ c'.capacity
  datum : ∀ s, c'.datum s = c.datum s

private theorem Form.extend_cases {β : Type} (F : Form ρ β) (cells : Array β) (slots : Nat)
    (granted : Bool) :
    (F.column <$> Slot.extend cells F.blank slots granted =
          .error (.full slots (F.column cells).capacity) ∧
        granted = false ∧ (F.column cells).capacity < slots) ∨
      ∃ c', F.column <$> Slot.extend cells F.blank slots granted = .ok c' ∧
        (F.column cells).Grows c' ∧ c'.capacity = max (F.column cells).capacity slots ∧
        ((F.column cells).capacity < slots → granted = true) := by
  simp only [F.capacity_column]
  rcases Slot.extend_cases cells F.blank slots granted with
    ⟨hrun, hrefused, hlt⟩ | ⟨cells', hrun, hsize, hget, hgranted⟩
  · rw [hrun]
    exact .inl ⟨rfl, hrefused, hlt⟩
  · rw [hrun]
    refine .inr ⟨F.column cells', rfl, ⟨F.representation_column _ _, ?_, fun s => ?_⟩, ?_, hgranted⟩
    · rw [F.capacity_column, F.capacity_column, hsize]
      exact le_max_left _ _
    · rw [F.datum_column, F.datum_column, hget]
    · rw [F.capacity_column, hsize]

/-- A column grows unless the space that it needs is refused. -/
theorem grow_cases (c : Column ρ) (backing : Backing) (slots : Nat) (grants : Allocator) :
    (c.grow backing slots grants = .error (.full slots c.capacity) ∧
        grants ⟨backing, slots, c.width⟩ = false ∧ c.capacity < slots) ∨
      ∃ c', c.grow backing slots grants = .ok c' ∧ c.Grows c' ∧
        c'.capacity = max c.capacity slots ∧
        (c.capacity < slots → grants ⟨backing, slots, c.width⟩ = true) := by
  cases c with
  | references cells => exact Form.references.extend_cases cells slots _
  | int32s cells => exact Form.int32s.extend_cases cells slots _
  | int64s cells => exact Form.int64s.extend_cases cells slots _

end Column
end TableIndex
