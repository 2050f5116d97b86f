import TableIndex.Proofs.Map.ChainRuns
import TableIndex.Proofs.Map.Twins

/-!
# The tables of maps

A map changes its hash table by inserts, removals and clears only. What holds of a table after every
run of these therefore holds of the table of a map, whatever is done to it.
-/

namespace TableIndex

namespace Chains

variable {c c' : Chains}

/-- A run of changes leads from one table to the other. -/
def Reaches (c c' : Chains) : Prop := ∃ ops, c.run ops = .ok c'

private theorem Reaches.refl (c : Chains) : c.Reaches c := ⟨[], rfl⟩

private theorem Reaches.of_apply (op : Op) (h : c.apply op = .ok c') : c.Reaches c' :=
  ⟨[op], by rw [run, h]; rfl⟩

private theorem Reaches.trans {c'' : Chains} (h : c.Reaches c') (k : c'.Reaches c'') :
    c.Reaches c'' := by
  obtain ⟨ops, hops⟩ := h
  obtain ⟨more, hmore⟩ := k
  refine ⟨ops ++ more, ?_⟩
  induction ops generalizing c with
  | nil =>
      obtain rfl := Except.ok.inj hops
      exact hmore
  | cons op ops ih =>
      obtain ⟨c₁, hop, hops⟩ := bind_eq_ok.mp hops
      rw [List.cons_append, run, hop, ok_bind]
      exact ih hops

end Chains

namespace Map

variable {κ ν : Type} {m m' : Map κ ν}

theorem Sound.valid (h : m.Sound) : m.chains.Valid where
  sound := h.chains
  limited := h.limited
  capacity_le := h.maxCapacity ▸ h.capacity_le
  maxCapacity_le := h.maxCapacity ▸ h.maxCapacity_le

private theorem touch_chains {l : Link} (h : m.touch l = .ok m') : m'.chains = m.chains := by
  unfold touch at h
  cases hr : m.recency with
  | none =>
      simp only [hr, pure_eq_ok, Except.ok.injEq] at h
      rw [h]
  | some r =>
      simp only [hr, bind_eq_ok, pure_eq_ok, Except.ok.injEq] at h
      obtain ⟨stamped, -, rfl⟩ := h
      rfl

private theorem allocate_reaches {hash : UInt64} {grants : Allocator}
    {result : Except Error Slot} (h : m.allocate hash grants = .ok (result, m')) :
    m.chains.Reaches m'.chains := by
  have hchains := makeRoom_chains m grants
  unfold allocate at h
  generalize m.makeRoom grants = answer at h hchains
  obtain ⟨answer, m₁⟩ := answer
  cases answer with
  | error e =>
      obtain rfl := snd_eq_of_ok h
      exact hchains ▸ .refl _
  | ok _ =>
      simp only [bind_eq_ok, pure_eq_ok, Except.ok.injEq, Prod.mk.injEq] at h
      obtain ⟨⟨slot, chains⟩, hinsert, -, rfl⟩ := h
      have hinsert' : m.chains.insert hash grants = .ok (slot, chains) := hchains ▸ hinsert
      exact .of_apply (.insert hash grants) (by rw [Chains.apply, hinsert']; rfl)

/-- A new key is refused its slot, or it is written to one and this is touched in the end. -/
theorem insertNew_steps {key : Datum κ} {value : Option (Datum ν)} {grants : Allocator}
    {result : Except Error Unit} (h : m.insertNew key value grants = .ok (result, m')) :
    (∃ e, m.allocate (m.hashOf key) grants = .ok (.error e, m') ∧ result = .error e) ∨
      ∃ s m₁ entries, m.allocate (m.hashOf key) grants = .ok (.ok s, m₁) ∧
        m₁.entries.writeEntry (some s) key value = .ok entries ∧
        ({ m₁ with entries } : Map κ ν).touch (some s) = .ok m' ∧ result = .ok () := by
  rw [insertNew_eq] at h
  obtain ⟨⟨slot, m₁⟩, hallocate, h⟩ := bind_eq_ok.mp h
  cases slot with
  | error e =>
      cases h
      exact .inl ⟨e, hallocate, rfl⟩
  | ok s =>
      obtain ⟨entries, hwrite, h⟩ := bind_eq_ok.mp h
      obtain ⟨m₂, htouch, h⟩ := bind_eq_ok.mp h
      cases h
      exact .inr ⟨s, m₁, entries, hallocate, hwrite, htouch, rfl⟩

private theorem insertNew_reaches {key : Datum κ} {value : Option (Datum ν)} {grants : Allocator}
    {result : Except Error Unit} (h : m.insertNew key value grants = .ok (result, m')) :
    m.chains.Reaches m'.chains := by
  rcases insertNew_steps h with ⟨e, hallocate, -⟩ | ⟨s, m₁, entries, hallocate, -, htouch, -⟩
  · exact allocate_reaches hallocate
  · have hreaches := allocate_reaches hallocate
    rw [touch_chains htouch]
    exact hreaches

variable [DecidableEq κ]

/-- A binding is not accepted, or written over an old one, or that of a new key. -/
theorem put_steps {key : Datum κ} {value : Datum ν} {grants : Allocator}
    {result : Except Error (Option (Datum ν))} (h : m.put key value grants = .ok (result, m')) :
    (m' = m ∧ ∃ e, result = .error e) ∨
      m.entries.admitsValue value = .ok () ∧ m.entries.admitsKey key = .ok () ∧
        ((∃ s old entries, m.find key = .ok (some s) ∧
            m.entries.writeValue (some s) value = .ok (old, entries) ∧
            ({ m with entries } : Map κ ν).touch (some s) = .ok m' ∧ result = .ok old) ∨
          m.find key = .ok none ∧
            ∃ inserted, m.insertNew key (some value) grants = .ok (inserted, m') ∧
              result = inserted.map fun _ => none) := by
  unfold put at h
  split at h
  · cases h
    exact .inl ⟨rfl, _, rfl⟩
  · cases h
    exact .inl ⟨rfl, _, rfl⟩
  · next hvalue hkey =>
      refine .inr ⟨hvalue, hkey, ?_⟩
      obtain ⟨found, hfind, h⟩ := bind_eq_ok.mp h
      cases found with
      | some s =>
          obtain ⟨⟨old, entries⟩, hwrite, h⟩ := bind_eq_ok.mp h
          obtain ⟨m₁, htouch, h⟩ := bind_eq_ok.mp h
          cases h
          exact .inl ⟨s, old, entries, hfind, hwrite, htouch, rfl⟩
      | none =>
          obtain ⟨⟨inserted, m₁⟩, hinsert, h⟩ := bind_eq_ok.mp h
          cases h
          exact .inr ⟨hfind, inserted, hinsert, rfl⟩

/-- A key is not accepted, or found and touched, or new. -/
theorem add_steps {key : Datum κ} {grants : Allocator} {result : Except Error Bool}
    (h : m.add key grants = .ok (result, m')) :
    (m' = m ∧ ∃ e, result = .error e) ∨
      m.entries.admitsKey key = .ok () ∧
        ((∃ s, m.find key = .ok (some s) ∧ m.touch (some s) = .ok m' ∧ result = .ok false) ∨
          m.find key = .ok none ∧
            ∃ inserted, m.insertNew key none grants = .ok (inserted, m') ∧
              result = inserted.map fun _ => true) := by
  unfold add at h
  split at h
  · cases h
    exact .inl ⟨rfl, _, rfl⟩
  · next hkey =>
      refine .inr ⟨hkey, ?_⟩
      obtain ⟨found, hfind, h⟩ := bind_eq_ok.mp h
      cases found with
      | some s =>
          obtain ⟨m₁, htouch, h⟩ := bind_eq_ok.mp h
          cases h
          exact .inl ⟨s, hfind, htouch, rfl⟩
      | none =>
          obtain ⟨⟨inserted, m₁⟩, hinsert, h⟩ := bind_eq_ok.mp h
          cases h
          exact .inr ⟨hfind, inserted, hinsert, rfl⟩

theorem get_steps {key : Datum κ} {value : Option (Datum ν)} (h : m.get key = .ok (value, m')) :
    m.find key = .ok none ∧ m' = m ∨
      ∃ s, m.find key = .ok (some s) ∧ m.touch (some s) = .ok m' := by
  unfold get at h
  obtain ⟨found, hfind, h⟩ := bind_eq_ok.mp h
  cases found with
  | none =>
      cases h
      exact .inl ⟨hfind, rfl⟩
  | some s =>
      obtain ⟨m₁, htouch, h⟩ := bind_eq_ok.mp h
      obtain ⟨read, -, h⟩ := bind_eq_ok.mp h
      cases h
      exact .inr ⟨s, hfind, htouch⟩

theorem erase_steps {key : Datum κ} {entry : Option (Datum κ × Option (Datum ν))}
    (h : m.erase key = .ok (entry, m')) :
    m' = m ∨ ∃ s hash chains recency taken entries, m.find key = .ok (some s) ∧
      m.chains.remove hash (some s) = .ok (true, chains) ∧
      (m.recency.mapM fun r => r.reset (some s)) = .ok recency ∧
      m.entries.takeAt (some s) = .ok (taken, entries) ∧
      m' = { m with chains, recency, entries } := by
  unfold erase at h
  obtain ⟨found, hfind, h⟩ := bind_eq_ok.mp h
  cases found with
  | none => exact .inl (snd_eq_of_ok h).symm
  | some s =>
      obtain ⟨hash, -, h⟩ := bind_eq_ok.mp h
      obtain ⟨⟨removed, chains⟩, hremove, h⟩ := bind_eq_ok.mp h
      cases removed with
      | false => exact .inl (snd_eq_of_ok h).symm
      | true =>
          obtain ⟨recency, hreset, h⟩ := bind_eq_ok.mp h
          obtain ⟨⟨taken, entries⟩, htake, h⟩ := bind_eq_ok.mp h
          exact .inr ⟨s, hash, chains, recency, taken, entries, hfind, hremove, hreset, htake,
            (snd_eq_of_ok h).symm⟩

private theorem put_reaches {key : Datum κ} {value : Datum ν} {grants : Allocator}
    {result : Except Error (Option (Datum ν))} (h : m.put key value grants = .ok (result, m')) :
    m.chains.Reaches m'.chains := by
  rcases put_steps h with ⟨rfl, -⟩ | ⟨-, -, ⟨s, old, entries, -, -, htouch, -⟩ | ⟨-, _, hinsert, -⟩⟩
  · exact .refl _
  · rw [touch_chains htouch]
    exact .refl _
  · exact insertNew_reaches hinsert

private theorem add_reaches {key : Datum κ} {grants : Allocator} {result : Except Error Bool}
    (h : m.add key grants = .ok (result, m')) : m.chains.Reaches m'.chains := by
  rcases add_steps h with ⟨rfl, -⟩ | ⟨-, ⟨s, -, htouch, -⟩ | ⟨-, _, hinsert, -⟩⟩
  · exact .refl _
  · rw [touch_chains htouch]
    exact .refl _
  · exact insertNew_reaches hinsert

private theorem get_chains {key : Datum κ} {value : Option (Datum ν)}
    (h : m.get key = .ok (value, m')) :
    m'.chains = m.chains := by
  rcases get_steps h with ⟨-, rfl⟩ | ⟨s, -, htouch⟩
  · rfl
  · exact touch_chains htouch

private theorem erase_reaches {key : Datum κ} {entry : Option (Datum κ × Option (Datum ν))}
    (h : m.erase key = .ok (entry, m')) : m.chains.Reaches m'.chains := by
  rcases erase_steps h with rfl | ⟨s, hash, chains, recency, taken, entries, -, hremove, -, -, rfl⟩
  · exact .refl _
  · exact .of_apply (.remove hash (some s)) (by rw [Chains.apply, hremove]; rfl)

private theorem apply_reaches {op : Op κ ν} {reply : Reply κ ν} (h : m.apply op = .ok (reply, m')) :
    m.chains.Reaches m'.chains := by
  cases op with
  | put key value grants =>
      obtain ⟨⟨result, m₁⟩, hput, h⟩ := bind_eq_ok.mp h
      obtain rfl := snd_eq_of_ok h
      exact put_reaches hput
  | add key grants =>
      obtain ⟨⟨result, m₁⟩, hadd, h⟩ := bind_eq_ok.mp h
      obtain rfl := snd_eq_of_ok h
      exact add_reaches hadd
  | get key =>
      obtain ⟨⟨value, m₁⟩, hget, h⟩ := bind_eq_ok.mp h
      obtain rfl := snd_eq_of_ok h
      exact get_chains hget ▸ .refl _
  | contains key =>
      obtain ⟨found, -, h⟩ := bind_eq_ok.mp h
      obtain rfl := snd_eq_of_ok h
      exact .refl _
  | remove key =>
      obtain ⟨⟨value, m₁⟩, hremove, h⟩ := bind_eq_ok.mp h
      obtain rfl := snd_eq_of_ok h
      obtain ⟨⟨entry, m₂⟩, herase, h⟩ := bind_eq_ok.mp hremove
      obtain rfl := snd_eq_of_ok h
      exact erase_reaches herase
  | erase key =>
      obtain ⟨⟨entry, m₁⟩, herase, h⟩ := bind_eq_ok.mp h
      obtain rfl := snd_eq_of_ok h
      exact erase_reaches herase
  | discard key =>
      obtain ⟨⟨found, m₁⟩, hdiscard, h⟩ := bind_eq_ok.mp h
      obtain rfl := snd_eq_of_ok h
      obtain ⟨⟨entry, m₂⟩, herase, h⟩ := bind_eq_ok.mp hdiscard
      obtain rfl := snd_eq_of_ok h
      exact erase_reaches herase
  | clear =>
      obtain rfl := snd_eq_of_ok h
      exact .of_apply .clear rfl

theorem run_reaches {ops : List (Op κ ν)} {replies : List (Reply κ ν)}
    (h : m.run ops = .ok (replies, m')) : m.chains.Reaches m'.chains := by
  induction ops generalizing m replies with
  | nil =>
      obtain rfl := snd_eq_of_ok h
      exact .refl _
  | cons op ops ih =>
      obtain ⟨⟨reply, m₁⟩, hop, h⟩ := bind_eq_ok.mp h
      obtain ⟨⟨rest, m₂⟩, hops, h⟩ := bind_eq_ok.mp h
      obtain rfl := snd_eq_of_ok h
      exact (apply_reaches hop).trans (ih hops)

theorem ofConfig_run {config : Config} (h : config.validate = .ok ()) (hasher : κ → UInt64)
    (ops : List (Op κ ν)) :
    ∃ (m₀ : Map κ ν) (replies : _) (m : _), ofConfig config hasher = .ok m₀ ∧
      m₀.run ops = .ok (replies, m) ∧
      (Chains.ofCapacity config.initialSlots config.loadFactor config.maxCapacity).Reaches
        m.chains := by
  obtain ⟨m₀, hnew, h₀⟩ := ofConfig_represents (ν := ν) h hasher
  obtain ⟨replies, m, -, hrun, -⟩ := h₀.run_answers ops
  obtain ⟨-, hchains, -⟩ := ofConfig_parts hnew
  exact ⟨m₀, replies, m, hnew, hrun, hchains ▸ run_reaches hrun⟩

end Map
end TableIndex
