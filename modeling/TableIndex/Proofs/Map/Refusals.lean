import TableIndex.Proofs.Map.TableRuns

/-!
# Refused keys

A map makes room in its columns before its table grows, and both test the new capacity against the
largest one. The two tests agree, so unless space itself is refused no column grows for a key that
the table then refuses: a put or an add that fails leaves the map exactly as it was.
-/

namespace TableIndex

/-- Every request for so many slots is granted if its bytes can be addressed. -/
def Allocator.Serves (grants : Allocator) (maxCapacity : Nat) : Prop :=
  ∀ r, r.slots ≤ maxCapacity → Allocator.addressable r = true → grants r = true

private theorem Allocator.addressable_serves (maxCapacity : Nat) :
    Allocator.addressable.Serves maxCapacity := fun _ _ => id

private theorem Allocator.Serves.granted {grants : Allocator} {maxCapacity slots width : Nat}
    (h : grants.Serves maxCapacity) (hmax : maxCapacity ≤ maxSlots) (hslots : slots ≤ maxCapacity)
    (hwidth : width ≤ 24) (backing : Backing) : grants ⟨backing, slots, width⟩ = true :=
  h _ hslots (Allocator.addressable_of_le (hslots.trans hmax) (hwidth.trans (by decide)))

private theorem Column.width_le {ρ : Type} (c : Column ρ) : c.width ≤ 24 := by
  cases c <;> simp [width]

private theorem Column.grow_granted {ρ : Type} {c : Column ρ} {backing : Backing} {slots : Nat}
    {grants : Allocator} (h : grants ⟨backing, slots, c.width⟩ = true) :
    ∃ c', c.grow backing slots grants = .ok c' := by
  rcases c.grow_cases backing slots grants with ⟨-, hrefused, -⟩ | ⟨c', hrun, -⟩
  · rw [h] at hrefused
    cases hrefused
  · exact ⟨c', hrun⟩

private theorem Recency.grow_granted {r : Recency} {slots : Nat} {grants : Allocator}
    (h : grants ⟨.counters, slots, 8⟩ = true) : ∃ r', r.grow slots grants = .ok r' := by
  rcases r.grow_cases slots grants with ⟨-, hrefused, -⟩ | ⟨r', hrun, -⟩
  · rw [h] at hrefused
    cases hrefused
  · exact ⟨r', hrun⟩

private theorem Entries.grow_granted {κ ν : Type} {e : Entries κ ν} {slots : Nat}
    {grants : Allocator} (h : ∀ backing width, width ≤ 24 → grants ⟨backing, slots, width⟩ = true) :
    ∃ e', e.grow slots grants = (.ok (), e') := by
  obtain ⟨keys, hkeys⟩ := Column.grow_granted (h .keys _ e.keys.width_le)
  cases hv : e.values with
  | none => exact ⟨⟨keys, none⟩, by simp [grow, hv, hkeys]⟩
  | some c =>
      obtain ⟨values, hvalues⟩ := Column.grow_granted (h .values _ c.width_le)
      exact ⟨⟨keys, some values⟩, by simp [grow, hv, hkeys, hvalues]⟩

private theorem Chains.admits_of_serves {c : Chains} {grants : Allocator} {capacity : Nat}
    (h : grants.Serves c.maxCapacity) (hmax : c.maxCapacity ≤ maxSlots)
    (hle : capacity ≤ c.maxCapacity) : c.Admits capacity grants := by
  refine ⟨hle, fun r hr => ?_⟩
  simp only [space, Arena.space, List.mem_cons, List.not_mem_nil, or_false] at hr
  rcases hr with rfl | rfl | rfl
  · exact h.granted hmax hle (by decide) _
  · exact h.granted hmax hle (by decide) _
  · exact h.granted hmax hle (by decide) _

namespace Map

variable {κ ν : Type} {m m' : Map κ ν} {grants : Allocator}

private theorem growColumns_granted {slots : Nat}
    (h : ∀ backing width, width ≤ 24 → grants ⟨backing, slots, width⟩ = true) :
    ∃ m', m.growColumns slots grants = (.ok (), m') := by
  obtain ⟨entries, hentries⟩ := Entries.grow_granted (e := m.entries) h
  cases hr : m.recency with
  | none => exact ⟨{ m with entries, recency := none }, by simp [growColumns, hentries, hr]⟩
  | some r =>
      obtain ⟨recency, hrecency⟩ := Recency.grow_granted (r := r) (h .counters 8 (by decide))
      exact ⟨{ m with entries, recency := some recency },
        by simp [growColumns, hentries, hr, hrecency]⟩

private theorem Sound.makeRoom_served (h : m.Sound) (hserves : grants.Serves m.config.maxCapacity) :
    ∃ m₁, m.makeRoom grants = (.ok (), m₁) ∧
      (m₁ = m ∨ ∃ capacity, m.chains.nextCapacity? = some capacity ∧
        m.chains.Admits capacity grants) := by
  unfold makeRoom
  cases hnext : m.chains.nextCapacity? with
  | none => exact ⟨m, rfl, .inl rfl⟩
  | some capacity =>
      by_cases hmax : m.config.maxCapacity < capacity
      · exact ⟨m, if_pos hmax, .inl rfl⟩
      · have hle := not_lt.mp hmax
        obtain ⟨m₁, hgrow⟩ := growColumns_granted (m := m) fun backing width hwidth =>
          hserves.granted h.maxCapacity_le hle hwidth backing
        refine ⟨m₁, (if_neg hmax).trans hgrow, .inr ⟨capacity, rfl, ?_⟩⟩
        rw [← h.maxCapacity] at hserves hle
        exact Chains.admits_of_serves hserves (h.maxCapacity ▸ h.maxCapacity_le) hle

private theorem Sound.allocate_refused (h : m.Sound) (hserves : grants.Serves m.config.maxCapacity)
    {hash : UInt64} {e : Error} (hrun : m.allocate hash grants = .ok (.error e, m')) : m' = m := by
  obtain ⟨m₁, hroom, hm₁⟩ := h.makeRoom_served hserves
  have hchains : m₁.chains = m.chains := by
    have hkept := makeRoom_chains m grants
    rwa [hroom] at hkept
  simp only [allocate, hroom, hchains] at hrun
  obtain ⟨⟨answer, chains⟩, hinsert, hrun⟩ := bind_eq_ok.mp hrun
  cases hrun
  rcases Chains.insert_cases h.chains h.limited (h.maxCapacity ▸ h.capacity_le)
      (h.maxCapacity ▸ h.maxCapacity_le) hash grants with
    ⟨requested, hrefused, hnext, hnot⟩ | ⟨s, c, hgiven, -⟩
  · rw [hrefused] at hinsert
    cases hinsert
    -- columns have grown only for a capacity that the table then accepts
    rcases hm₁ with rfl | ⟨capacity, hcapacity, hadmits⟩
    · rfl
    · rw [hnext] at hcapacity
      cases hcapacity
      exact absurd hadmits hnot
  · rw [hgiven] at hinsert
    cases hinsert

private theorem Sound.insertNew_refused (h : m.Sound)
    (hserves : grants.Serves m.config.maxCapacity) {key : Datum κ} {value : Option (Datum ν)}
    {e : Error} (hrun : m.insertNew key value grants = .ok (.error e, m')) : m' = m := by
  rcases insertNew_steps hrun with ⟨_, hallocate, -⟩ | ⟨s, m₁, entries, -, -, -, hresult⟩
  · exact h.allocate_refused hserves hallocate
  · cases hresult

/-- An operation that may need space is granted what a map of that capacity may ask for. -/
def Op.Served (maxCapacity : Nat) : Op κ ν → Prop
  | .put _ _ grants => grants.Serves maxCapacity
  | .add _ grants => grants.Serves maxCapacity
  | _ => True

variable [DecidableEq κ]

private theorem Sound.put_refused (h : m.Sound) (hserves : grants.Serves m.config.maxCapacity)
    {key : Datum κ} {value : Datum ν} {e : Error}
    (hrun : m.put key value grants = .ok (.error e, m')) : m' = m := by
  rcases put_steps hrun with ⟨hsame, -⟩ |
    ⟨-, -, ⟨s, old, entries, -, -, -, hresult⟩ | ⟨-, inserted, hinsert, hresult⟩⟩
  · exact hsame
  · cases hresult
  · cases inserted with
    | error e' => exact h.insertNew_refused hserves hinsert
    | ok _ => cases hresult

private theorem Sound.add_refused (h : m.Sound) (hserves : grants.Serves m.config.maxCapacity)
    {key : Datum κ} {e : Error} (hrun : m.add key grants = .ok (.error e, m')) : m' = m := by
  rcases add_steps hrun with ⟨hsame, -⟩ |
    ⟨-, ⟨s, -, -, hresult⟩ | ⟨-, inserted, hinsert, hresult⟩⟩
  · exact hsame
  · cases hresult
  · cases inserted with
    | error e' => exact h.insertNew_refused hserves hinsert
    | ok _ => cases hresult

theorem Sound.apply_refused (h : m.Sound) {op : Op κ ν} (hserved : op.Served m.config.maxCapacity)
    {e : Error} (hrun : m.apply op = .ok (.error e, m')) : m' = m := by
  unfold apply at hrun
  cases op with
  | put key value grants =>
      obtain ⟨⟨result, m₁⟩, hput, hrun⟩ := bind_eq_ok.mp hrun
      cases result with
      | error e' =>
          obtain rfl := snd_eq_of_ok hrun
          exact h.put_refused hserved hput
      | ok _ => cases hrun
  | add key grants =>
      obtain ⟨⟨result, m₁⟩, hadd, hrun⟩ := bind_eq_ok.mp hrun
      cases result with
      | error e' =>
          obtain rfl := snd_eq_of_ok hrun
          exact h.add_refused hserved hadd
      | ok _ => cases hrun
  | get key =>
      obtain ⟨⟨value, m₁⟩, -, hrun⟩ := bind_eq_ok.mp hrun
      cases hrun
  | contains key =>
      obtain ⟨found, -, hrun⟩ := bind_eq_ok.mp hrun
      cases hrun
  | remove key =>
      obtain ⟨⟨value, m₁⟩, -, hrun⟩ := bind_eq_ok.mp hrun
      cases hrun
  | erase key =>
      obtain ⟨⟨entry, m₁⟩, -, hrun⟩ := bind_eq_ok.mp hrun
      cases hrun
  | discard key =>
      obtain ⟨⟨found, m₁⟩, -, hrun⟩ := bind_eq_ok.mp hrun
      cases hrun
  | clear => cases hrun

private theorem run_append {ops : List (Op κ ν)} {replies : List (Reply κ ν)}
    (hrun : m.run ops = .ok (replies, m')) {more : List (Op κ ν)} {rest : List (Reply κ ν)}
    {m'' : Map κ ν} (hmore : m'.run more = .ok (rest, m'')) :
    m.run (ops ++ more) = .ok (replies ++ rest, m'') := by
  induction ops generalizing m replies with
  | nil =>
      cases hrun
      exact hmore
  | cons op ops ih =>
      obtain ⟨⟨reply, m₁⟩, hop, hrun⟩ := bind_eq_ok.mp hrun
      obtain ⟨⟨replies', m₂⟩, hops, hrun⟩ := bind_eq_ok.mp hrun
      cases hrun
      simp only [List.cons_append, run, hop, ok_bind, ih hops, pure_eq_ok]

/-- Whatever was done to a map before, a put or an add that fails leaves it as it was, in every
part, and whatever is done to it afterwards is answered as if it had not been tried. Earlier
operations may have been refused space. -/
theorem failed_op_unseen {config : Config} (hvalid : config.validate = .ok ()) (hasher : κ → UInt64)
    (ops : List (Op κ ν)) :
    ∃ m₀ replies m, ofConfig config hasher = .ok m₀ ∧ m₀.run ops = .ok (replies, m) ∧
      ∀ op : Op κ ν, op.Served config.maxCapacity → ∃ reply m', m.apply op = .ok (reply, m') ∧
        ∀ e, reply = .error e → m' = m ∧ ∀ later : List (Op κ ν), ∃ rest m'',
          m₀.run (ops ++ later) = .ok (replies ++ rest, m'') ∧
          m₀.run (ops ++ op :: later) = .ok (replies ++ .error e :: rest, m'') := by
  obtain ⟨m₀, hnew, h₀⟩ := ofConfig_represents (ν := ν) hvalid hasher
  obtain ⟨replies, m, M, hrun, -, h⟩ := h₀.run_answers ops
  refine ⟨m₀, replies, m, hnew, hrun, fun op hserved => ?_⟩
  obtain ⟨reply, m', M', hop, -, h'⟩ := h.apply_answers op
  refine ⟨reply, m', hop, ?_⟩
  rintro e rfl
  obtain rfl : m' = m := h.sound.apply_refused (h.config ▸ hserved) hop
  refine ⟨rfl, fun later => ?_⟩
  obtain ⟨rest, m'', M'', hlater, -, -⟩ := h.run_answers later
  have hfailed : m'.run (op :: later) = .ok (.error e :: rest, m'') := by
    simp only [run, hop, hlater, ok_bind, pure_eq_ok]
  exact ⟨rest, m'', run_append hrun hlater, run_append hrun hfailed⟩

/-- One slot and no more, with a stamp. -/
def Config.oneSlot : Config :=
  { key := .int32, value := some .int32, initialCapacity := 1, maxCapacity := 1,
    trackAccess := true }

/-- A map of one slot is full with one key. It refuses a second one and keeps no trace of it. -/
theorem failed_op_unseen_full :
    ∃ m₀ m : Map String String, Config.oneSlot.validate = .ok () ∧
      ofConfig Config.oneSlot (fun _ => 0) = .ok m₀ ∧
      m₀.run [.put (.int32 1) (.int32 5) .addressable] = .ok ([.value none], m) ∧
      m.apply (.put (.int32 2) (.int32 5) .addressable) = .ok (.error (.full 2 1), m) ∧
      ∀ later, ∃ rest m'',
        m₀.run (.put (.int32 1) (.int32 5) .addressable :: later) =
          .ok (.value none :: rest, m'') ∧
        m₀.run (.put (.int32 1) (.int32 5) .addressable ::
            .put (.int32 2) (.int32 5) .addressable :: later) =
          .ok (.value none :: .error (.full 2 1) :: rest, m'') := by
  have hvalid : Config.oneSlot.validate = .ok () := by decide
  obtain ⟨m₀, m, hnew, hrun⟩ : ∃ m₀ m : Map String String,
      ofConfig Config.oneSlot (fun _ => 0) = .ok m₀ ∧
      m₀.run [.put (.int32 1) (.int32 5) .addressable] = .ok ([.value none], m) :=
    ⟨_, _, rfl, rfl⟩
  have hop : ∀ m₀ m : Map String String, ofConfig Config.oneSlot (fun _ => 0) = .ok m₀ →
      m₀.run [.put (.int32 1) (.int32 5) .addressable] = .ok ([.value none], m) →
      ∃ m', m.apply (.put (.int32 2) (.int32 5) .addressable) = .ok (.error (.full 2 1), m') := by
    rintro _ _ ⟨⟩ ⟨⟩
    exact ⟨_, rfl⟩
  obtain ⟨m', hop⟩ := hop m₀ m hnew hrun
  obtain ⟨m₁, replies, m₂, hnew₁, hrun₁, hfailed⟩ :=
    failed_op_unseen (ν := String) hvalid (fun _ : String => 0)
      [.put (.int32 1) (.int32 5) .addressable]
  obtain rfl := Except.ok.inj (hnew.symm.trans hnew₁)
  obtain ⟨rfl, rfl⟩ := Prod.mk.inj (Except.ok.inj (hrun.symm.trans hrun₁))
  obtain ⟨reply, m₃, hop₁, hsame⟩ :=
    hfailed (.put (.int32 2) (.int32 5) .addressable) (Allocator.addressable_serves _)
  obtain ⟨rfl, rfl⟩ := Prod.mk.inj (Except.ok.inj (hop.symm.trans hop₁))
  obtain ⟨rfl, hlater⟩ := hsame _ rfl
  exact ⟨m₀, m', hvalid, hnew, hrun, hop, hlater⟩

end Map
end TableIndex
