import TableIndex.Proofs.Map.Entries

/-!
# Growth of two columns

The value column grows before the key column, and each of them needs space of its own. If the keys
are refused theirs after the values had it, the values keep it.
-/

namespace TableIndex

private theorem Slot.extend_of_le {α : Type} {cells : Array α} {empty : α} {capacity : Nat}
    {granted : Bool} (h : capacity ≤ cells.size) :
    extend cells empty capacity granted = .ok cells := if_pos h

namespace Column

variable {ρ : Type}

/-- The column `c'` has the cells of `c`, and empty ones behind them up to `slots`. -/
structure Enlarges (c c' : Column ρ) (slots : Nat) : Prop where
  representation : c'.representation = c.representation
  capacity : c'.capacity = max c.capacity slots
  kept : ∀ s < c.capacity, c'.read (some s) = c.read (some s)
  fresh : ∀ s, c.capacity ≤ s → s < slots → c'.read (some s) = .ok (empty c.representation)

/-- Space that the column lacks and does not get. -/
def Refused (c : Column ρ) (backing : Backing) (slots : Nat) (grants : Allocator) : Prop :=
  c.capacity < slots ∧ grants ⟨backing, slots, c.width⟩ = false

/-- Space that the column lacks and gets. -/
def Granted (c : Column ρ) (backing : Backing) (slots : Nat) (grants : Allocator) : Prop :=
  c.capacity < slots ∧ grants ⟨backing, slots, c.width⟩ = true

private theorem datum_of_capacity_le {c : Column ρ} {s : Slot} (h : c.capacity ≤ s) :
    c.datum s = empty c.representation := by
  cases c with
  | references cells => simp [datum, Array.getElem?_eq_none h, empty, representation]
  | int32s cells => simp [datum, Array.getElem?_eq_none h, empty, representation]
  | int64s cells => simp [datum, Array.getElem?_eq_none h, empty, representation]

private theorem Grows.enlarges {c c' : Column ρ} {slots : Nat} (h : c.Grows c')
    (hcap : c'.capacity = max c.capacity slots) : c.Enlarges c' slots where
  representation := h.representation
  capacity := hcap
  kept s hs := by rw [read_eq (hs.trans_le h.capacity), read_eq hs, h.datum]
  fresh s hs hlt := by
    have hnew : s < c'.capacity := hlt.trans_le (hcap ▸ le_max_right _ _)
    rw [read_eq hnew, h.datum, datum_of_capacity_le hs]

private theorem grow_of_refused {c : Column ρ} {backing : Backing} {slots : Nat}
    {grants : Allocator} (h : c.Refused backing slots grants) :
    c.grow backing slots grants = .error (.full slots c.capacity) := by
  rcases grow_cases c backing slots grants with ⟨hrun, -⟩ | ⟨c', -, -, -, hgranted⟩
  · exact hrun
  · have := hgranted h.1
    rw [h.2] at this
    cases this

private theorem grow_of_not_refused {c : Column ρ} {backing : Backing} {slots : Nat}
    {grants : Allocator} (h : ¬ c.Refused backing slots grants) :
    ∃ c', c.grow backing slots grants = .ok c' ∧ c.Enlarges c' slots := by
  rcases grow_cases c backing slots grants with ⟨-, hr, hlt⟩ | ⟨c', hrun, hgrows, hcap, -⟩
  · exact absurd ⟨hlt, hr⟩ h
  · exact ⟨c', hrun, hgrows.enlarges hcap⟩

private theorem grow_of_le {c : Column ρ} {backing : Backing} {slots : Nat} {grants : Allocator}
    (h : slots ≤ c.capacity) : c.grow backing slots grants = .ok c := by
  cases c with
  | references cells => exact congrArg (references <$> ·) (Slot.extend_of_le h)
  | int32s cells => exact congrArg (int32s <$> ·) (Slot.extend_of_le h)
  | int64s cells => exact congrArg (int64s <$> ·) (Slot.extend_of_le h)

end Column

namespace Entries

variable {κ ν : Type}

/-- The growth of the entries `e` with the outcome `out` is all or nothing: it succeeds with both
columns enlarged, or fails and changes neither. -/
structure Whole (e : Entries κ ν) (slots : Nat) (out : Except Error Unit × Entries κ ν) :
    Prop where
  ok : out.1 = .ok () → e.keys.Enlarges out.2.keys slots ∧
    Option.Rel (fun c c' => c.Enlarges c' slots) e.values out.2.values
  error : ∀ err, out.1 = .error err → out.2 = e

/-- The values get the space that they lack, the keys do not. -/
def Torn (e : Entries κ ν) (slots : Nat) (grants : Allocator) : Prop :=
  (∃ c, e.values = some c ∧ c.Granted .values slots grants) ∧ e.keys.Refused .keys slots grants

variable {e : Entries κ ν} {slots : Nat} {grants : Allocator}

private theorem grow_of_torn (h : e.Torn slots grants) :
    ∃ c c', e.values = some c ∧ c.Enlarges c' slots ∧ c.capacity < c'.capacity ∧
      e.grow slots grants =
        (.error (.full slots e.keys.capacity), { e with values := some c' }) := by
  obtain ⟨⟨c, hvalues, hlt, hgranted⟩, hkeys⟩ := h
  have hnot : ¬ c.Refused .values slots grants := fun hr => by simp [hgranted, Column.Refused] at hr
  obtain ⟨c', hrun, hc⟩ := Column.grow_of_not_refused hnot
  refine ⟨c, c', hvalues, hc, ?_, ?_⟩
  · rw [hc.capacity]
    exact hlt.trans_le (le_max_right _ _)
  · simp [grow, hvalues, hrun, Column.grow_of_refused hkeys]

private theorem grow_of_values_same (values : Option (Column ν))
    (hvalues : (e.values.mapM fun c => c.grow .values slots grants) = .ok values)
    (hrel : Option.Rel (fun c c' => c.Enlarges c' slots) e.values values)
    (hsame : e.keys.Refused .keys slots grants → values = e.values) :
    e.Whole slots (e.grow slots grants) := by
  by_cases hkeys : e.keys.Refused .keys slots grants
  · have hgrow : e.grow slots grants = (.error (.full slots e.keys.capacity), e) := by
      simp [grow, hvalues, Column.grow_of_refused hkeys, hsame hkeys]
    rw [hgrow]
    exact ⟨by simp, fun _ _ => rfl⟩
  · obtain ⟨keys, hrun, hc⟩ := Column.grow_of_not_refused hkeys
    have hgrow : e.grow slots grants = (.ok (), ⟨keys, values⟩) := by
      simp [grow, hvalues, hrun]
    rw [hgrow]
    exact ⟨fun _ => ⟨hc, hrel⟩, by simp⟩

private theorem grow_of_not_torn (h : ¬ e.Torn slots grants) : e.Whole slots
    (e.grow slots grants) := by
  cases hv : e.values with
  | none =>
      refine grow_of_values_same none (by simp [hv]) ?_ fun _ => hv.symm
      rw [hv]
      exact .none
  | some c =>
      by_cases hvalues : c.Refused .values slots grants
      · have hgrow : e.grow slots grants = (.error (.full slots c.capacity), e) := by
          simp [grow, hv, Column.grow_of_refused hvalues]
        rw [hgrow]
        exact ⟨by simp, fun _ _ => rfl⟩
      · obtain ⟨c', hrun, hc⟩ := Column.grow_of_not_refused hvalues
        refine grow_of_values_same (some c') (by simp [hv, hrun]) ?_ fun hkeys => ?_
        · rw [hv]
          exact .some hc
        · have hle : slots ≤ c.capacity := by
            by_contra hlt
            have hlt := lt_of_not_ge hlt
            refine h ⟨⟨c, hv, hlt, ?_⟩, hkeys⟩
            rw [← Bool.not_eq_false]
            exact fun hr => hvalues ⟨hlt, hr⟩
          rw [hv, ← Except.ok.inj ((Column.grow_of_le hle).symm.trans hrun)]

/-- Growth is all or nothing except if the values get the space that they lack and the keys do not:
then it fails with the value column enlarged and the key column as it was. -/
theorem grow_whole_iff (e : Entries κ ν) (slots : Nat) (grants : Allocator) :
    (e.Whole slots (e.grow slots grants) ↔ ¬ e.Torn slots grants) ∧
      (e.Torn slots grants → ∃ c c', e.values = some c ∧ c.Enlarges c' slots ∧
        c.capacity < c'.capacity ∧
        e.grow slots grants =
          (.error (.full slots e.keys.capacity), { e with values := some c' })) := by
  refine ⟨⟨fun hwhole htorn => ?_, grow_of_not_torn⟩, grow_of_torn⟩
  obtain ⟨c, c', hvalues, -, hlt, hrun⟩ := grow_of_torn htorn
  rw [hrun] at hwhole
  have hsame := congrArg Entries.values (hwhole.error _ rfl)
  rw [hvalues] at hsame
  rw [Option.some.inj hsame] at hlt
  exact lt_irrefl _ hlt

/-- Keys of 24 bytes and values of 4, on a machine that refuses blocks of 32 GiB. -/
theorem grow_whole_iff_int32 :
    ¬ (ofCapacity .reference (some .int32) 1 : Entries String String).Whole 1450000000
      ((ofCapacity .reference (some .int32) 1).grow 1450000000
        fun r => decide (r.slots * r.width < Nat.pow 2 35)) :=
  fun hwhole =>
    (grow_whole_iff _ _ _).1.mp hwhole ⟨⟨_, rfl, by decide, by decide⟩, by decide, by decide⟩

end Entries
end TableIndex
