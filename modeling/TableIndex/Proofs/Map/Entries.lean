import TableIndex.Map.Entries
import TableIndex.Proofs.Slot.Column

/-!
# What entries hold

Entries give a key and a value for every slot; a set gives no value at all. Every operation on one
slot leaves the others as they are.
-/

namespace TableIndex.Entries

variable {κ ν : Type}

/-- The key in a slot. -/
def key (e : Entries κ ν) (s : Slot) : Option (Datum κ) := e.keys.datum s

/-- The value in a slot. -/
def value (e : Entries κ ν) (s : Slot) : Option (Datum ν) := e.values.bind (·.datum s)

/-- The key in an empty slot. -/
def emptyKey (e : Entries κ ν) : Option (Datum κ) := Column.empty e.keys.representation

/-- The value in an empty slot. -/
def emptyValue (e : Entries κ ν) : Option (Datum ν) :=
  e.values.bind fun c => Column.empty c.representation

/-- Both columns have that many cells. -/
structure Room (e : Entries κ ν) (n : Nat) : Prop where
  keys : n ≤ e.keys.capacity
  values : ∀ c, e.values = some c → n ≤ c.capacity

/-- How many keys there is space for. -/
def keyCells (e : Entries κ ν) : Nat := e.keys.capacity

/-- How many values there is space for, if there are values. -/
def valueCells (e : Entries κ ν) : Option Nat := e.values.map Column.capacity

/-- The columns of `e'` are like those of `e`, with no less space. -/
structure Like (e e' : Entries κ ν) : Prop where
  keys : e'.keys.representation = e.keys.representation
  values : e'.values.map Column.representation = e.values.map Column.representation
  room : ∀ {n}, e.Room n → e'.Room n

theorem Like.refl (e : Entries κ ν) : e.Like e := ⟨rfl, rfl, id⟩

theorem Like.trans {e e' e'' : Entries κ ν} (h : e.Like e') (k : e'.Like e'') : e.Like e'' :=
  ⟨k.keys.trans h.keys, k.values.trans h.values, fun r => k.room (h.room r)⟩

/-- The columns of `e'` are like those of `e`, with as much space. -/
structure Matches (e e' : Entries κ ν) : Prop extends e.Like e' where
  keyCells : e'.keyCells = e.keyCells
  valueCells : e'.valueCells = e.valueCells

private theorem Matches.trans {e e' e'' : Entries κ ν} (h : e.Matches e') (k : e'.Matches e'') :
    e.Matches e'' :=
  ⟨h.toLike.trans k.toLike, k.keyCells.trans h.keyCells, k.valueCells.trans h.valueCells⟩

private theorem Matches.keys_changes {e : Entries κ ν} {c : Column κ} {s : Slot}
    {d : Option (Datum κ)} (hc : e.keys.Changes c s d) : e.Matches { e with keys := c } where
  keys := hc.representation
  values := rfl
  room := fun r => ⟨r.keys.trans_eq hc.capacity.symm, r.values⟩
  keyCells := hc.capacity
  valueCells := rfl

private theorem Matches.values_changes {e : Entries κ ν} {c c' : Column ν} {s : Slot}
    {d : Option (Datum ν)} (hv : e.values = some c) (hc : c.Changes c' s d) :
    e.Matches { e with values := some c' } where
  keys := rfl
  values := by simp [hv, hc.representation]
  room := by
    refine fun r => ⟨r.keys, ?_⟩
    rintro _ ⟨⟩
    exact (r.values c hv).trans_eq hc.capacity.symm
  keyCells := rfl
  valueCells := by simp [Entries.valueCells, hv, hc.capacity]

theorem emptyValue_eq (e : Entries κ ν) :
    e.emptyValue = (e.values.map Column.representation).bind Column.empty := by
  cases h : e.values <;> simp [emptyValue, h]

variable {e : Entries κ ν} {n : Nat} {s : Slot}

theorem keyAt_eq (h : e.Room n) (hs : s < n) : e.keyAt (some s) = .ok (e.key s) :=
  Column.read_eq (hs.trans_le h.keys)

theorem valueAt_eq (h : e.Room n) (hs : s < n) : e.valueAt (some s) = .ok (e.value s) := by
  unfold valueAt value
  cases hv : e.values with
  | none => rfl
  | some c => exact Column.read_eq (hs.trans_le (h.values c hv))

theorem holdsKey_eq [DecidableEq κ] (h : e.Room n) (hs : s < n) (k : Datum κ) :
    ∃ b, e.holdsKey (some s) k = .ok b ∧ (b = true ↔ e.key s = some k) :=
  Column.holds_eq (hs.trans_le h.keys) k

theorem representation_of_admitsKey {k : Datum κ} (h : e.admitsKey k = .ok ()) :
    k.representation = e.keys.representation := by
  unfold admitsKey Column.check at h
  split at h
  · next heq => exact heq.symm
  · cases h

theorem representation_of_admitsValue {v : Datum ν} (h : e.admitsValue v = .ok ()) :
    e.values.map Column.representation = some v.representation := by
  unfold admitsValue at h
  cases hv : e.values with
  | none => simp [hv] at h
  | some c =>
      simp only [hv, Column.check] at h
      split at h
      · next heq => exact congrArg some heq
      · cases h

private theorem writeKey_eq (h : e.Room n) (hs : s < n) {k : Datum κ}
    (hk : k.representation = e.keys.representation) :
    ∃ e', e.writeKey (some s) k = .ok e' ∧ e.Matches e' ∧
      (∀ u, e'.key u = if u = s then some k else e.key u) ∧ ∀ u, e'.value u = e.value u := by
  obtain ⟨c, hrun, hc⟩ := Column.write_eq (hs.trans_le h.keys) hk
  exact ⟨{ e with keys := c }, by simp [writeKey, hrun], .keys_changes hc, hc.datum, fun _ => rfl⟩

theorem writeValue_eq (h : e.Room n) (hs : s < n) {v : Datum ν}
    (hv : e.values.map Column.representation = some v.representation) :
    ∃ e', e.writeValue (some s) v = .ok (e.value s, e') ∧ e.Matches e' ∧
      (∀ u, e'.key u = e.key u) ∧ ∀ u, e'.value u = if u = s then some v else e.value u := by
  obtain ⟨c, hvalues, hrep⟩ := Option.map_eq_some_iff.mp hv
  obtain ⟨c', hrun, hc⟩ := Column.write_eq (hs.trans_le (h.values c hvalues)) hrep.symm
  refine ⟨{ e with values := some c' }, by simp [writeValue, value, hvalues, hrun],
    .values_changes hvalues hc, fun _ => rfl, fun u => ?_⟩
  simp [value, hvalues, hc.datum]

/-- A key is written to a slot, and then a value if there is one. -/
def writeEntry (e : Entries κ ν) (l : Link) (key : Datum κ) (value : Option (Datum ν)) :
    Checked (Entries κ ν) := do
  let e ← e.writeKey l key
  match value with
  | none => pure e
  | some v => Prod.snd <$> e.writeValue l v

theorem writeEntry_eq (h : e.Room n) (hs : s < n) {k : Datum κ}
    (hk : k.representation = e.keys.representation) {value : Option (Datum ν)}
    (hv : ∀ v, value = some v → e.values.map Column.representation = some v.representation) :
    ∃ e', e.writeEntry (some s) k value = .ok e' ∧ e.Matches e' ∧
      (∀ u, e'.key u = if u = s then some k else e.key u) ∧
      ∀ u, e'.value u = if u = s then value.or (e.value s) else e.value u := by
  obtain ⟨e₁, hwrite, hlike, hkey, hvalue⟩ := writeKey_eq h hs hk
  unfold writeEntry
  rw [hwrite, ok_bind]
  cases value with
  | none =>
      refine ⟨e₁, rfl, hlike, hkey, fun u => ?_⟩
      rw [hvalue]
      split
      · next hu => rw [hu, Option.none_or]
      · rfl
  | some v =>
      obtain ⟨e', hrun, hlike', hkey', hvalue'⟩ :=
        writeValue_eq (hlike.room h) hs (hlike.values.trans (hv v rfl))
      refine ⟨e', ?_, hlike.trans hlike', fun u => (hkey' u).trans (hkey u), fun u => ?_⟩
      · dsimp only
        rw [hrun]
        rfl
      · rw [hvalue', hvalue, Option.some_or]

theorem takeAt_eq (h : e.Room n) (hs : s < n) :
    ∃ e', e.takeAt (some s) = .ok ((e.key s, e.value s), e') ∧ e.Matches e' ∧
      (∀ u, e'.key u = if u = s then e.emptyKey else e.key u) ∧
      ∀ u, e'.value u = if u = s then e.emptyValue else e.value u := by
  obtain ⟨c, hrun, hc⟩ := Column.take_eq (hs.trans_le h.keys)
  cases hv : e.values with
  | none =>
      refine ⟨{ e with keys := c }, by simp [takeAt, hrun, hv, key, value], .keys_changes hc,
        hc.datum, fun u => ?_⟩
      simp [value, emptyValue, hv]
  | some d =>
      obtain ⟨d', hrun', hd⟩ := Column.take_eq (hs.trans_le (h.values d hv))
      refine ⟨⟨c, some d'⟩, by simp [takeAt, hrun, hrun', hv, key, value],
        (Matches.keys_changes hc).trans (.values_changes hv hd), hc.datum, fun u => ?_⟩
      simp [value, emptyValue, hv, hd.datum]

theorem ofCapacity_eq (key : Representation) (value : Option Representation) (n : Nat) :
    (ofCapacity key value n : Entries κ ν).keys.representation = key ∧
      (ofCapacity key value n : Entries κ ν).values.map Column.representation = value ∧
      (ofCapacity key value n : Entries κ ν).Room n ∧
      (ofCapacity key value n : Entries κ ν).keyCells = n ∧
      (ofCapacity key value n : Entries κ ν).valueCells = value.map fun _ => n := by
  obtain ⟨hkey, hkeys⟩ := Column.ofCapacity_eq (ρ := κ) key n
  cases value with
  | none => exact ⟨hkey, rfl, ⟨hkeys.ge, by simp [ofCapacity]⟩, hkeys, rfl⟩
  | some r =>
      obtain ⟨hvalue, hvalues⟩ := Column.ofCapacity_eq (ρ := ν) r n
      refine ⟨hkey, congrArg some hvalue, ⟨hkeys.ge, ?_⟩, hkeys, congrArg some hvalues⟩
      rintro _ ⟨⟩
      exact hvalues.ge

theorem ofCapacity_empty (key : Representation) (value : Option Representation) (n : Nat)
    (s : Slot) :
    (ofCapacity key value n : Entries κ ν).key s = Column.empty key ∧
      (ofCapacity key value n : Entries κ ν).value s = value.bind Column.empty := by
  refine ⟨Column.datum_ofCapacity key n s, ?_⟩
  cases value with
  | none => rfl
  | some r => exact Column.datum_ofCapacity r n s

theorem clear_eq (e : Entries κ ν) :
    e.Matches e.clear ∧ ∀ s, e.clear.key s = e.emptyKey ∧ e.clear.value s = e.emptyValue := by
  obtain ⟨hrep, hcap, hempty⟩ := Column.clear_eq e.keys
  refine ⟨⟨⟨hrep, ?_, fun r => ⟨r.keys.trans_eq hcap.symm, ?_⟩⟩, hcap, ?_⟩,
    fun s => ⟨hempty s, ?_⟩⟩
  · cases hv : e.values with
    | none => simp [clear, hv]
    | some c => simp [clear, hv, (Column.clear_eq c).1]
  · intro c hc
    obtain ⟨d, hd, rfl⟩ := Option.map_eq_some_iff.mp hc
    exact (r.values d hd).trans_eq (Column.clear_eq d).2.1.symm
  · cases hv : e.values with
    | none => simp [valueCells, clear, hv]
    | some c => simp [valueCells, clear, hv, (Column.clear_eq c).2.1]
  · cases hv : e.values with
    | none => simp [clear, value, emptyValue, hv]
    | some c => simp [clear, value, emptyValue, hv, (Column.clear_eq c).2.2]

theorem clear_eq_ofCapacity (hkeys : e.keyCells = n)
    (hvalues : ∀ k, e.valueCells = some k → k = n) :
    e.clear = ofCapacity e.keys.representation (e.values.map Column.representation) n := by
  unfold clear ofCapacity
  rw [Column.clear_eq_ofCapacity, show e.keys.capacity = n from hkeys, Option.map_map]
  congr 1
  refine Option.map_congr fun c hc => ?_
  have hcap : c.capacity = n := hvalues _ (by rw [valueCells, hc, Option.map_some])
  rw [Function.comp_apply, Column.clear_eq_ofCapacity, hcap]

end TableIndex.Entries
