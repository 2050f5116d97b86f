import TableIndex.Proofs.Map.Refinement

/-!
# Maps that differ in their chains and counts alone

Which slot a key takes, when a table grows and what a search finds depend on which slots are live
and which keys they hold, and on no chain. Nothing depends on how often a table was resized and on
where the clock began. Every operation therefore answers the same on two maps that are alike in
everything but their hash functions and chains, where one is ahead in these two counts, and leaves
two such maps.
-/

namespace TableIndex

/-- Both computations fail with the same error, or both give results and these are related. -/
inductive Agree {ε α β : Type} (R : α → β → Prop) : Except ε α → Except ε β → Prop
  | ok {a : α} {b : β} (h : R a b) : Agree R (.ok a) (.ok b)
  | error (e : ε) : Agree R (.error e) (.error e)

/-- The same answer, and states that are related. -/
def Same {α β γ : Type} (R : β → γ → Prop) (x : α × β) (y : α × γ) : Prop :=
  y.1 = x.1 ∧ R x.2 y.2

namespace Agree

variable {ε α β γ δ : Type} {R : α → β → Prop} {S : γ → δ → Prop}

private theorem bind {x : Except ε α} {y : Except ε β} {f : α → Except ε γ} {g : β → Except ε δ}
    (h : Agree R x y) (hfg : ∀ a b, R a b → Agree S (f a) (g b)) :
    Agree S (x >>= f) (y >>= g) := by
  cases h with
  | ok h => exact hfg _ _ h
  | error e => exact .error e

private theorem bind_same (x : Except ε α) {f : α → Except ε γ} {g : α → Except ε δ}
    (hfg : ∀ a, Agree S (f a) (g a)) : Agree S (x >>= f) (x >>= g) := by
  cases x with
  | ok a => exact hfg a
  | error e => exact .error e

private theorem map (f : α → β) (x : Except ε α) : Agree (fun a b => b = f a) x (x.map f) := by
  cases x with
  | ok a => exact .ok rfl
  | error e => exact .error e

private theorem reply {R : β → γ → Prop} {x : Except ε (α × β)} {y : Except ε (α × γ)}
    (h : Agree (Same R) x y) (f : α → δ) :
    Agree (Same R) (do let (a, b) ← x; return (f a, b)) (do let (a, c) ← y; return (f a, c)) :=
  h.bind fun _ _ hxy => .ok ⟨congrArg f hxy.1, hxy.2⟩

end Agree

namespace Chains

variable {c c' : Chains} {resizes : Nat}

/-- The same slots and limits, and so many resizes more. -/
structure Ahead (resizes : Nat) (c c' : Chains) : Prop extends c.Alike c' where
  resizes : c'.resizes = c.resizes + resizes

private theorem Alike.symm (h : c.Alike c') : c'.Alike c where
  slots := h.slots.symm
  capacity := h.capacity.symm
  maxCapacity := h.maxCapacity.symm
  loadFactor := h.loadFactor.symm
  limit := h.limit.symm

namespace Ahead

theorem refl (c : Chains) : c.Ahead 0 c := ⟨.refl c, rfl⟩

private theorem contains_iff (h : c.Ahead resizes c') {s : Slot} :
    (∃ hash, c'.hash? s = some hash) ↔ ∃ hash, c.hash? s = some hash := by
  rw [← contains_iff_hash?, ← contains_iff_hash?, h.slots.contains]

private theorem nextCapacity?_eq (h : c.Ahead resizes c') : c'.nextCapacity? = c.nextCapacity? := by
  rw [nextCapacity?, nextCapacity?, size, size, h.limit, h.slots.size, h.slots.hasFree, h.capacity]

private theorem link (h : c.Ahead resizes c') (hc : c.Sound) (hash hash' : UInt64) :
    Same (Ahead resizes) (c.link hash) (c'.link hash') := by
  have hboth := h.slots.allocate hc.links ⟨c.head hash, hash⟩ ⟨c'.head hash', hash'⟩
  unfold Chains.link
  generalize c.links.allocate ⟨c.head hash, hash⟩ = x at hboth ⊢
  generalize c'.links.allocate ⟨c'.head hash', hash'⟩ = y at hboth ⊢
  obtain ⟨x, links⟩ := x
  obtain ⟨y, links'⟩ := y
  obtain ⟨hslot, hlinks⟩ := hboth
  obtain rfl : y = x := hslot
  cases y with
  | none => exact ⟨rfl, h⟩
  | some s =>
      refine ⟨rfl, ⟨hlinks, ?_, h.maxCapacity, h.loadFactor, h.limit⟩, h.resizes⟩
      simpa [Chains.capacity] using h.capacity

private theorem resized (h : c.Ahead resizes c') {capacity : Nat} {grants : Allocator}
    {d d' : Chains} (hd : c.Resized capacity grants d) (hd' : c'.Resized capacity grants d') :
    d.Ahead resizes d' where
  slots := by
    obtain ⟨links, hgrow, hslots⟩ := hd.slots
    obtain ⟨links', hgrow', hslots'⟩ := hd'.slots
    exact hslots.symm.trans ((h.slots.grow hgrow hgrow').trans hslots')
  capacity := hd'.capacity.trans hd.capacity.symm
  maxCapacity := by rw [hd'.maxCapacity, hd.maxCapacity, h.maxCapacity]
  loadFactor := by rw [hd'.loadFactor, hd.loadFactor, h.loadFactor]
  limit := by
    have hlimit : d.limit = limitFor d.capacity d.loadFactor := hd.limited
    have hlimit' : d'.limit = limitFor d'.capacity d'.loadFactor := hd'.limited
    rw [hlimit, hlimit', hd.capacity, hd'.capacity, hd.loadFactor, hd'.loadFactor, h.loadFactor]
  resizes := by rw [hd'.resizes, hd.resizes, h.resizes, Nat.add_right_comm]

private theorem resize (h : c.Ahead resizes c') (hc : c.Sound) (hc' : c'.Sound) {capacity : Nat}
    (hlt : c.capacity < capacity) (grants : Allocator) :
    (∃ e, c.resize capacity grants = .ok (.error e) ∧
        c'.resize capacity grants = .ok (.error e)) ∨
      ∃ d d', c.resize capacity grants = .ok (.ok d) ∧ c'.resize capacity grants = .ok (.ok d') ∧
        d.Ahead resizes d' ∧ d.Sound := by
  have hadmits : c'.Admits capacity grants ↔ c.Admits capacity grants := by
    rw [Admits, Admits, h.maxCapacity]
  have hceiling : c'.ceiling capacity = c.ceiling capacity := by
    rw [ceiling, ceiling, h.maxCapacity, h.capacity]
  rcases resize_cases hc hlt grants with ⟨hrun, hr⟩ | ⟨⟨d, hrun, hd⟩, hr⟩
  · rcases resize_cases hc' (h.capacity.trans_lt hlt) grants with ⟨hrun', -⟩ | ⟨-, hr'⟩
    · exact .inl ⟨_, hrun, hceiling ▸ hrun'⟩
    · exact absurd (hadmits.mp hr') hr
  · rcases resize_cases hc' (h.capacity.trans_lt hlt) grants with ⟨-, hr'⟩ | ⟨⟨d', hrun', hd'⟩, -⟩
    · exact absurd (hadmits.mpr hr) hr'
    · exact .inr ⟨d, d', hrun, hrun', h.resized hd hd', hd.sound⟩

private theorem insert (h : c.Ahead resizes c') (hc : c.Sound) (hc' : c'.Sound) (hlimit : c.Limited)
    (hsmall : c.capacity ≤ maxSlots) (hash hash' : UInt64) (grants : Allocator) :
    Agree (Same (Ahead resizes)) (c.insert hash grants) (c'.insert hash' grants) := by
  unfold Chains.insert
  rw [h.nextCapacity?_eq]
  cases hnext : c.nextCapacity? with
  | none => exact .ok (h.link hc hash hash')
  | some capacity =>
      have hlt := lt_of_nextCapacity? hc hlimit hsmall hnext
      rcases h.resize hc hc' hlt grants with ⟨e, hrun, hrun'⟩ | ⟨d, d', hrun, hrun', hd, hsound⟩
      · simp only [hrun, hrun', ok_bind]
        exact .ok ⟨rfl, h⟩
      · simp only [hrun, hrun', ok_bind]
        exact .ok (hd.link hsound hash hash')

private theorem remove (h : c.Ahead resizes c') (hc : c.Sound) (hc' : c'.Sound) {s : Slot}
    {own own' : UInt64} (hs : c.hash? s = some own) (hs' : c'.hash? s = some own') :
    ∃ d d', c.remove own (some s) = .ok (true, d) ∧ c'.remove own' (some s) = .ok (true, d') ∧
      d.Ahead resizes d' := by
  obtain ⟨c₁, hc₁, -, hrun⟩ := remove_run hc hs rfl
  obtain ⟨c₁', hc₁', -, hrun'⟩ := remove_run hc' hs' rfl
  obtain ⟨cell, hcell, -⟩ := hash?_eq_some.mp ((hc₁.hash s).trans hs)
  obtain ⟨cell', hcell', -⟩ := hash?_eq_some.mp ((hc₁'.hash s).trans hs')
  have h₁ : c₁.Alike c₁' := hc₁.toAlike.symm.trans (h.toAlike.trans hc₁'.toAlike)
  refine ⟨_, _, hrun, hrun', { h₁ with slots := h₁.slots.release hcell hcell', resizes := ?_ }⟩
  rw [hc₁'.resizes, hc₁.resizes, h.resizes]

private theorem clear (h : c.Ahead resizes c') (hc : c.Sound) (hc' : c'.Sound) :
    c.clear.Ahead resizes c'.clear where
  slots := h.slots.clear hc.links hc'.links
  capacity := by simpa [Chains.clear, Chains.capacity] using h.capacity
  maxCapacity := h.maxCapacity
  loadFactor := h.loadFactor
  limit := h.limit
  resizes := h.resizes

end Ahead

theorem clear_ahead (h : c.Sound) (hlimit : c.Limited) :
    (ofCapacity c.capacity c.loadFactor c.maxCapacity).Ahead c.resizes c.clear where
  slots :=
    { freed := rfl
      frontier := rfl
      size := rfl
      capacity := by
        rw [show c.clear.links = c.links.clear from rfl, Arena.clear_capacity, h.capacity_eq]
        simp [ofCapacity, Arena.ofCapacity, Arena.capacity]
      contains := by
        intro s
        rw [Arena.contains, Arena.contains, show c.clear.links = c.links.clear from rfl,
          Arena.clear_get? h.links]
        simp [ofCapacity, Arena.ofCapacity_get?] }
  capacity := by simp [Chains.clear, ofCapacity, Chains.capacity]
  maxCapacity := rfl
  loadFactor := rfl
  limit := hlimit
  resizes := (Nat.zero_add _).symm

end Chains

namespace Map

variable {κ ν : Type}

/-- Maps that differ in their hash functions, their chains and their first capacity alone, where the
second one has been resized so many times more and has a clock that is so many ticks ahead. -/
structure Twin (resizes ticks : Nat) (m m' : Map κ ν) : Prop where
  maxCapacity : m'.config.maxCapacity = m.config.maxCapacity
  entries : m'.entries = m.entries
  recency : m'.recency = m.recency.map (Recency.later ticks)
  chains : m.chains.Ahead resizes m'.chains

variable {m m' : Map κ ν} {resizes ticks : Nat} {s : Slot} {key : Datum κ}

theorem makeRoom_chains (m : Map κ ν) (grants : Allocator) :
    (m.makeRoom grants).2.chains = m.chains := by
  unfold makeRoom
  split
  · rfl
  · split
    · rfl
    · unfold growColumns
      split
      · rfl
      · split <;> rfl

namespace Twin

theorem holds_iff (h : m.Twin resizes ticks m') : m'.Holds s key ↔ m.Holds s key := by
  rw [Holds, Holds, h.entries, h.chains.contains_iff]

private theorem withEntries (h : m.Twin resizes ticks m') (entries : Entries κ ν) :
    Twin resizes ticks { m with entries } { m' with entries } :=
  { h with entries := rfl }

private theorem touch (h : m.Twin resizes ticks m') (l : Link) :
    Agree (Twin resizes ticks) (m.touch l) (m'.touch l) := by
  unfold Map.touch
  rw [h.recency]
  cases hr : m.recency with
  | none => exact .ok h
  | some r =>
      simp only [Option.map_some, Recency.touch_later]
      refine (Agree.map _ _).bind fun touched touched' htouched => .ok { h with recency := ?_ }
      rw [htouched]
      rfl

private theorem makeRoom (h : m.Twin resizes ticks m') (grants : Allocator) :
    Same (Twin resizes ticks) (m.makeRoom grants) (m'.makeRoom grants) := by
  unfold Map.makeRoom growColumns
  rw [h.chains.nextCapacity?_eq, h.maxCapacity, h.entries, h.recency]
  cases m.chains.nextCapacity? with
  | none => exact ⟨rfl, h⟩
  | some capacity =>
      by_cases hmax : m.config.maxCapacity < capacity
      · simp only [if_pos hmax]
        exact ⟨rfl, h⟩
      · simp only [if_neg hmax]
        generalize m.entries.grow capacity grants = grown
        obtain ⟨_ | _, entries⟩ := grown
        · exact ⟨rfl, h.maxCapacity, rfl, rfl, h.chains⟩
        · cases hr : m.recency with
          | none => exact ⟨rfl, h.maxCapacity, rfl, rfl, h.chains⟩
          | some r =>
              simp only [Option.map_some, Option.mapM_some, Recency.grow_later]
              cases r.grow capacity grants with
              | error e => exact ⟨rfl, h.maxCapacity, rfl, rfl, h.chains⟩
              | ok r' => exact ⟨rfl, h.maxCapacity, rfl, rfl, h.chains⟩

private theorem allocate (h : m.Twin resizes ticks m') (hm : m.Sound) (hm' : m'.Sound)
    (hash hash' : UInt64) (grants : Allocator) :
    Agree (Same (Twin resizes ticks)) (m.allocate hash grants) (m'.allocate hash' grants) := by
  have hinsert := h.chains.insert hm.chains hm'.chains hm.limited
    (hm.capacity_le.trans hm.maxCapacity_le) hash hash' grants
  rw [← makeRoom_chains m grants, ← makeRoom_chains m' grants] at hinsert
  have hroom := h.makeRoom grants
  unfold Map.allocate
  generalize m.makeRoom grants = x at hinsert hroom ⊢
  generalize m'.makeRoom grants = y at hinsert hroom ⊢
  obtain ⟨x, m₁⟩ := x
  obtain ⟨y, m₁'⟩ := y
  obtain ⟨hanswer, h₁⟩ := hroom
  obtain rfl : y = x := hanswer
  cases y with
  | error e => exact .ok ⟨rfl, h₁⟩
  | ok _ => exact hinsert.bind fun x y hxy => .ok ⟨hxy.1, { h₁ with chains := hxy.2 }⟩

private theorem insertNew (h : m.Twin resizes ticks m') (hm : m.Sound) (hm' : m'.Sound)
    (key : Datum κ) (value : Option (Datum ν)) (grants : Allocator) :
    Agree (Same (Twin resizes ticks)) (m.insertNew key value grants)
      (m'.insertNew key value grants) := by
  refine (h.allocate hm hm' _ _ grants).bind ?_
  rintro ⟨x, m₁⟩ ⟨y, m₁'⟩ ⟨hanswer, h₁⟩
  obtain rfl : y = x := hanswer
  cases y with
  | error e => exact .ok ⟨rfl, h₁⟩
  | ok s =>
      dsimp only
      rw [h₁.entries]
      refine .bind_same _ fun keyed => ?_
      cases value with
      | none =>
          exact .bind_same _ fun entries =>
            ((h₁.withEntries entries).touch (some s)).bind fun _ _ h₂ => .ok ⟨rfl, h₂⟩
      | some v =>
          exact .bind_same _ fun entries =>
            ((h₁.withEntries entries).touch (some s)).bind fun _ _ h₂ => .ok ⟨rfl, h₂⟩

private theorem clear (h : m.Twin resizes ticks m') (hm : m.Sound) (hm' : m'.Sound) :
    m.clear.Twin resizes ticks m'.clear where
  maxCapacity := h.maxCapacity
  entries := congrArg Entries.clear h.entries
  recency := by
    show m'.recency.map Recency.clear = (m.recency.map Recency.clear).map (Recency.later ticks)
    rw [h.recency, Option.map_map, Option.map_map]
    exact Option.map_congr fun r _ => r.clear_later ticks
  chains := h.chains.clear hm.chains hm'.chains

variable [DecidableEq κ]

theorem find_cases (h : m.Twin resizes ticks m') (hm : m.Sound) (hm' : m'.Sound) (key : Datum κ) :
    (∃ s, m.find key = .ok (some s) ∧ m'.find key = .ok (some s) ∧ m.Holds s key) ∨
      m.find key = .ok none ∧ m'.find key = .ok none := by
  rcases Map.find_cases hm key with ⟨s, hfind, hs⟩ | ⟨hfind, hnone⟩
  · rcases Map.find_cases hm' key with ⟨u, hfind', hu⟩ | ⟨-, hnone'⟩
    · -- the chains may lead to the key in another order, but only one slot holds it
      obtain rfl : s = u := hm.distinct s u key hs (h.holds_iff.mp hu)
      exact .inl ⟨s, hfind, hfind', hs⟩
    · exact absurd (h.holds_iff.mpr hs) (hnone' s)
  · rcases Map.find_cases hm' key with ⟨u, -, hu⟩ | ⟨hfind', -⟩
    · exact absurd (h.holds_iff.mp hu) (hnone u)
    · exact .inr ⟨hfind, hfind'⟩

private theorem put (h : m.Twin resizes ticks m') (hm : m.Sound) (hm' : m'.Sound) (key : Datum κ)
    (value : Datum ν) (grants : Allocator) :
    Agree (Same (Twin resizes ticks)) (m.put key value grants) (m'.put key value grants) := by
  unfold Map.put
  rw [h.entries]
  rcases m.entries.admitsValue value with e | _
  · exact .ok ⟨rfl, h⟩
  rcases m.entries.admitsKey key with e | _
  · exact .ok ⟨rfl, h⟩
  rcases h.find_cases hm hm' key with ⟨s, hfind, hfind', -⟩ | ⟨hfind, hfind'⟩
  · simp only [hfind, hfind', ok_bind]
    refine .bind_same _ fun written => ?_
    exact ((h.withEntries written.2).touch (some s)).bind fun _ _ h₁ => .ok ⟨rfl, h₁⟩
  · simp only [hfind, hfind', ok_bind]
    exact (h.insertNew hm hm' key (some value) grants).reply (Except.map fun _ => none)

private theorem add (h : m.Twin resizes ticks m') (hm : m.Sound) (hm' : m'.Sound) (key : Datum κ)
    (grants : Allocator) :
    Agree (Same (Twin resizes ticks)) (m.add key grants) (m'.add key grants) := by
  unfold Map.add
  rw [h.entries]
  rcases m.entries.admitsKey key with e | _
  · exact .ok ⟨rfl, h⟩
  rcases h.find_cases hm hm' key with ⟨s, hfind, hfind', -⟩ | ⟨hfind, hfind'⟩
  · simp only [hfind, hfind', ok_bind]
    exact (h.touch (some s)).bind fun _ _ h₁ => .ok ⟨rfl, h₁⟩
  · simp only [hfind, hfind', ok_bind]
    exact (h.insertNew hm hm' key none grants).reply (Except.map fun _ => true)

private theorem get (h : m.Twin resizes ticks m') (hm : m.Sound) (hm' : m'.Sound) (key : Datum κ) :
    Agree (Same (Twin resizes ticks)) (m.get key) (m'.get key) := by
  unfold Map.get
  rcases h.find_cases hm hm' key with ⟨s, hfind, hfind', -⟩ | ⟨hfind, hfind'⟩
  · simp only [hfind, hfind', ok_bind]
    refine (h.touch (some s)).bind fun m₁ m₁' h₁ => ?_
    rw [h₁.entries]
    exact .bind_same _ fun value => .ok ⟨rfl, h₁⟩
  · simp only [hfind, hfind', ok_bind]
    exact .ok ⟨rfl, h⟩

private theorem contains (h : m.Twin resizes ticks m') (hm : m.Sound) (hm' : m'.Sound)
    (key : Datum κ) :
    m'.contains key = m.contains key := by
  unfold Map.contains
  rcases h.find_cases hm hm' key with ⟨s, hfind, hfind', -⟩ | ⟨hfind, hfind'⟩
  · rw [hfind, hfind']
  · rw [hfind, hfind']

private theorem erase (h : m.Twin resizes ticks m') (hm : m.Sound) (hm' : m'.Sound)
    (key : Datum κ) :
    Agree (Same (Twin resizes ticks)) (m.erase key) (m'.erase key) := by
  unfold Map.erase
  rcases h.find_cases hm hm' key with ⟨s, hfind, hfind', hs⟩ | ⟨hfind, hfind'⟩
  · obtain ⟨own, hown⟩ := hs.1
    obtain ⟨own', hown'⟩ := h.chains.contains_iff.mpr hs.1
    obtain ⟨d, d', hrun, hrun', hd⟩ := h.chains.remove hm.chains hm'.chains hown hown'
    have hreset : Agree (fun r r' => r' = r.map (Recency.later ticks))
        (m.recency.mapM fun r => r.reset (some s)) (m'.recency.mapM fun r => r.reset (some s)) := by
      rw [h.recency]
      cases m.recency with
      | none => exact .ok rfl
      | some r =>
          simp only [Option.map_some, Option.mapM_some, Recency.reset_later]
          cases r.reset (some s) with
          | error e => exact .error e
          | ok r' => exact .ok rfl
    simp only [hfind, hfind', ok_bind, Chains.hashAt_of_hash? hown, Chains.hashAt_of_hash? hown',
      hrun, hrun', h.entries]
    exact hreset.bind fun r r' hr => .bind_same _ fun taken =>
      .ok ⟨rfl, h.maxCapacity, rfl, hr, hd⟩
  · simp only [hfind, hfind', ok_bind]
    exact .ok ⟨rfl, h⟩

theorem apply (h : m.Twin resizes ticks m') (hm : m.Sound) (hm' : m'.Sound) (op : Op κ ν) :
    Agree (Same (Twin resizes ticks)) (m.apply op) (m'.apply op) := by
  cases op with
  | put key value grants => exact (h.put hm hm' key value grants).reply (Reply.ofExcept .value)
  | add key grants => exact (h.add hm hm' key grants).reply (Reply.ofExcept .flag)
  | get key => exact (h.get hm hm' key).reply Reply.value
  | contains key =>
      simp only [Map.apply, h.contains hm hm']
      exact .bind_same _ fun found => .ok ⟨rfl, h⟩
  | remove key => exact ((h.erase hm hm' key).reply (·.bind Prod.snd)).reply Reply.value
  | erase key => exact (h.erase hm hm' key).reply Reply.entry
  | discard key => exact ((h.erase hm hm' key).reply Option.isSome).reply Reply.flag
  | clear => exact .ok ⟨rfl, h.clear hm hm'⟩

end Twin
end Map
end TableIndex
