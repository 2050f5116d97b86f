import TableIndex.Proofs.Map.Content

/-!
# Maps as finite maps

Every operation on a map answers what it would answer on the finite map that the map represents,
and leaves a map that represents the result. No configuration, hash function or refusal of space
makes a difference, except that a key may be refused space.
-/

namespace TableIndex.Map

variable {κ ν : Type}

/-- An operation of a client. One that adds a key may need space, and says what is granted. -/
inductive Op (κ ν : Type)
  | put (key : Datum κ) (value : Datum ν) (grants : Allocator)
  | add (key : Datum κ) (grants : Allocator)
  | get (key : Datum κ)
  | contains (key : Datum κ)
  | remove (key : Datum κ)
  | erase (key : Datum κ)
  | discard (key : Datum κ)
  | clear

inductive Reply (κ ν : Type)
  | error (e : Error)
  | value (value : Option (Datum ν))
  | flag (b : Bool)
  | entry (entry : Option (Datum κ × Option (Datum ν)))
  | done
  deriving DecidableEq

def Reply.ofExcept {α : Type} (reply : α → Reply κ ν) : Except Error α → Reply κ ν
  | .ok a => reply a
  | .error e => .error e

variable [DecidableEq κ]

def apply (m : Map κ ν) : Op κ ν → Checked (Reply κ ν × Map κ ν)
  | .put key value grants => do
      let (result, m) ← m.put key value grants
      return (.ofExcept .value result, m)
  | .add key grants => do
      let (result, m) ← m.add key grants
      return (.ofExcept .flag result, m)
  | .get key => do
      let (value, m) ← m.get key
      return (.value value, m)
  | .contains key => return (.flag (← m.contains key), m)
  | .remove key => do
      let (value, m) ← m.remove key
      return (.value value, m)
  | .erase key => do
      let (entry, m) ← m.erase key
      return (.entry entry, m)
  | .discard key => do
      let (found, m) ← m.discard key
      return (.flag found, m)
  | .clear => .ok (.done, m.clear)

/-- The replies to operations one after the other. -/
def run (m : Map κ ν) : List (Op κ ν) → Checked (List (Reply κ ν) × Map κ ν)
  | [] => .ok ([], m)
  | op :: ops => do
      let (reply, m) ← m.apply op
      let (replies, m) ← m.run ops
      return (reply :: replies, m)

/-- What the finite map `M` in this space answers to an operation, and what it and its space are
afterwards. Only a new key asks for space. -/
inductive Config.Answers (config : Config) (M : Bindings κ ν) (space : Space) :
    Op κ ν → Reply κ ν → Bindings κ ν → Space → Prop
  | putToSet {key value grants} (hset : config.value = none) :
      Answers config M space (.put key value grants) (.error .noValueColumn) M space
  | putWrongValue {key value grants r} (hvalue : config.value = some r)
      (hwrong : r ≠ value.representation) :
      Answers config M space (.put key value grants)
        (.error (.wrongRepresentation .value r value.representation)) M space
  | putWrongKey {key value grants} (hvalue : config.value = some value.representation)
      (hwrong : config.key ≠ key.representation) :
      Answers config M space (.put key value grants)
        (.error (.wrongRepresentation .key config.key key.representation)) M space
  | putFull {key value grants requested limit space'}
      (hvalue : config.value = some value.representation)
      (hkey : config.key = key.representation) (habsent : M.lookup key = none)
      (hfull : config.allot space M.keys.card grants =
        (.error (.full requested limit), space')) :
      Answers config M space (.put key value grants) (.error (.full requested limit)) M space'
  | putNew {key value grants space'} (hvalue : config.value = some value.representation)
      (hkey : config.key = key.representation) (habsent : M.lookup key = none)
      (hroom : config.allot space M.keys.card grants = (.ok (), space')) :
      Answers config M space (.put key value grants) (.value none) (M.insert key (some value))
        space'
  | putOver {key value grants old} (hvalue : config.value = some value.representation)
      (hkey : config.key = key.representation) (hpresent : M.lookup key = some old) :
      Answers config M space (.put key value grants) (.value old) (M.insert key (some value)) space
  | addWrongKey {key grants} (hwrong : config.key ≠ key.representation) :
      Answers config M space (.add key grants)
        (.error (.wrongRepresentation .key config.key key.representation)) M space
  | addFull {key grants requested limit space'} (hkey : config.key = key.representation)
      (habsent : M.lookup key = none)
      (hfull : config.allot space M.keys.card grants =
        (.error (.full requested limit), space')) :
      Answers config M space (.add key grants) (.error (.full requested limit)) M space'
  | addNew {key grants space'} (hkey : config.key = key.representation)
      (habsent : M.lookup key = none)
      (hroom : config.allot space M.keys.card grants = (.ok (), space')) :
      Answers config M space (.add key grants) (.flag true) (M.insert key config.emptyValue) space'
  | addAgain {key grants} (hkey : config.key = key.representation) (hpresent : key ∈ M) :
      Answers config M space (.add key grants) (.flag false) M space
  | get {key} : Answers config M space (.get key) (.value (M.lookup key).join) M space
  | contains {key} :
      Answers config M space (.contains key) (.flag (M.lookup key).isSome) M space
  | remove {key} :
      Answers config M space (.remove key) (.value (M.lookup key).join) (M.erase key) space
  | erase {key} :
      Answers config M space (.erase key) (.entry ((M.lookup key).map (key, ·))) (M.erase key)
        space
  | discard {key} :
      Answers config M space (.discard key) (.flag (M.lookup key).isSome) (M.erase key) space
  | clear : Answers config M space .clear .done ∅ space

/-- What a finite map answers to operations one after the other, and what it and its space are in
the end. -/
inductive Config.AnswersAll (config : Config) :
    Bindings κ ν → Space → List (Op κ ν) → List (Reply κ ν) → Bindings κ ν → Space → Prop
  | nil {M space} : AnswersAll config M space [] [] M space
  | cons {M space op reply M' space' ops replies M'' space''}
      (hop : config.Answers M space op reply M' space')
      (hops : AnswersAll config M' space' ops replies M'' space'') :
      AnswersAll config M space (op :: ops) (reply :: replies) M'' space''

/-- The configuration leaves no choice of the answer. -/
theorem Config.Answers.unique {config : Config} {M M₁ M₂ : Bindings κ ν}
    {space space₁ space₂ : Space} {op : Op κ ν} {reply₁ reply₂ : Reply κ ν}
    (h₁ : config.Answers M space op reply₁ M₁ space₁)
    (h₂ : config.Answers M space op reply₂ M₂ space₂) :
    reply₁ = reply₂ ∧ M₁ = M₂ ∧ space₁ = space₂ := by
  cases h₁ <;> cases h₂ <;> simp_all [← Finmap.lookup_isSome]

variable {m : Map κ ν} {config : Config} {M : Bindings κ ν}

namespace Represents

private theorem find_cases (h : m.Represents config M) (key : Datum κ) :
    (∃ s, m.find key = .ok (some s) ∧ m.Holds s key ∧ s < m.chains.capacity ∧
        M.lookup key = some (m.entries.value s)) ∨
      m.find key = .ok none ∧ M.lookup key = none := by
  rcases Map.find_cases h.sound key with ⟨s, hfind, hs⟩ | ⟨hfind, hnone⟩
  · exact .inl ⟨s, hfind, hs, h.sound.lt_capacity hs.1.choose_spec, h.lookup_of_holds hs⟩
  · exact .inr ⟨hfind, h.lookup_eq_none.mpr hnone⟩

private theorem touch_eq (h : m.Represents config M) {s : Slot} (hs : s < m.chains.capacity) :
    ∃ m', m.touch (some s) = .ok m' ∧ m'.Represents config M ∧ m'.space = m.space ∧
      m'.entries.valueAt (some s) = .ok (m.entries.value s) := by
  obtain ⟨m', hrun, htouches⟩ := Map.touch_eq hs h.sound.stamped
  have h' := h.like htouches.toLike
  refine ⟨m', hrun, h', htouches.space, ?_⟩
  rw [Entries.valueAt_eq h'.sound.room (htouches.chains ▸ hs), htouches.value]

private theorem writeValue_eq (h : m.Represents config M) {s : Slot} {key : Datum κ}
    (hs : m.Holds s key) {value : Datum ν} (hvalue : config.value = some value.representation) :
    ∃ e, m.entries.writeValue (some s) value = .ok (m.entries.value s, e) ∧
      ({ m with entries := e } : Map κ ν).Represents config (M.insert key (some value)) ∧
      ({ m with entries := e } : Map κ ν).space = m.space := by
  have hsound := h.sound
  have hlt := hsound.lt_capacity hs.1.choose_spec
  obtain ⟨e, hrun, hlike, hkey, hnew⟩ :=
    Entries.writeValue_eq hsound.room hlt (hsound.value.trans (h.config ▸ hvalue))
  refine ⟨e, hrun, ?_, space_of_matches hlike⟩
  have hc : m.Changes { m with entries := e } s :=
    { fits :=
        { hsound.toFits with
          key := hlike.keys.trans hsound.key
          value := hlike.values.trans hsound.value
          room := hlike.room hsound.room }
      config := rfl
      hasher := rfl
      hash := fun _ _ => rfl
      key := fun u _ => hkey u
      value := fun u hu => (hnew u).trans (if_neg hu) }
  have hself : e.value s = some value := (hnew s).trans (if_pos rfl)
  rw [← hself]
  refine hc.represents_insert h (hsound.hash?_of_holds hs) ((hkey s).trans hs.2)
    (hsound.representation_of_holds hs) (fun k hk => ?_) fun u hu => hsound.distinct u s key hu hs
  exact Option.some.inj (hk.2.symm.trans hs.2)

private theorem insertNew_cases (h : m.Represents config M) {key : Datum κ}
    (habsent : M.lookup key = none) (hrep : config.key = key.representation)
    (value : Option (Datum ν))
    (hvalue : ∀ v, value = some v → config.value = some v.representation) (grants : Allocator) :
    ∃ m', (∃ requested limit,
          m.insertNew key value grants = .ok (.error (.full requested limit), m') ∧
            config.allot m.space M.keys.card grants =
              (.error (.full requested limit), m'.space) ∧ m'.Represents config M) ∨
        m.insertNew key value grants = .ok (.ok (), m') ∧
          config.allot m.space M.keys.card grants = (.ok (), m'.space) ∧
          m'.Represents config (M.insert key (value.or config.emptyValue)) := by
  have hsound := h.sound
  obtain ⟨m₁, hgrows, hcases⟩ := Map.allocate_cases hsound (m.hashOf key) grants
  rw [h.config, h.lists.size] at hcases
  have hlike := hgrows.toLike
  rcases hcases with ⟨requested, limit, hrun, hfull⟩ |
    ⟨s, c, hrun, hadds, hcap, hroom, hstamped, hspace⟩
  · exact ⟨m₁, .inl ⟨requested, limit, by simp [insertNew, hrun], hfull, h.like hlike⟩⟩
  have hlt : s < c.capacity := by
    have hs : c.hash? s = some (m.hashOf key) := by rw [hadds.hash, if_pos rfl]
    obtain ⟨cell, hcell, -⟩ := Chains.hash?_eq_some.mp hs
    exact (Arena.lt_capacity hcell).trans_eq hadds.sound.capacity_eq
  have hcolumn : key.representation = m₁.entries.keys.representation := by
    rw [hlike.entries.keys, hsound.key, h.config, hrep]
  have hvalues : ∀ v, value = some v →
      m₁.entries.values.map Column.representation = some v.representation := by
    intro v hv
    rw [hlike.entries.values, hsound.value, h.config, hvalue v hv]
  obtain ⟨e, hwrite, he, hkey, hbound⟩ := Entries.writeEntry_eq hroom hlt hcolumn hvalues
  have hfits := hlike.fits hsound.toFits
  have hc : m.Changes { m₁ with chains := c, entries := e } s :=
    { fits :=
        { hfits with
          chains := hadds.sound
          limited := hadds.limited
          loadFactor := hadds.loadFactor.trans (hlike.chains ▸ hfits.loadFactor)
          maxCapacity := hadds.maxCapacity.trans (hlike.chains ▸ hfits.maxCapacity)
          capacity_le := by rw [hlike.config, h.config]; exact hcap
          key := he.keys.trans hfits.key
          value := he.values.trans hfits.value
          room := he.room hroom
          stamped := hstamped }
      config := hlike.config
      hasher := hlike.hasher
      hash := fun u hu => (hadds.hash u).trans (if_neg hu)
      key := fun u hu => by rw [hkey, if_neg hu, hlike.key]
      value := fun u hu => by rw [hbound, if_neg hu, hlike.value] }
  have hfree : ∀ k, ¬ m.Holds s k := by
    rintro k ⟨⟨hash, hlive⟩, -⟩
    rw [hadds.fresh] at hlive
    cases hlive
  -- the slot held the empty value, and keeps it if no value is given
  have hself : e.value s = value.or config.emptyValue := by
    rw [hbound, if_pos rfl, hlike.value, hsound.emptied s hadds.fresh, h.config]
  have h₂ := hc.represents_insert h ((hadds.hash s).trans (if_pos rfl))
    ((hkey s).trans (if_pos rfl)) (h.config ▸ hrep.symm) (fun k hk => absurd hk (hfree k))
    fun u hu => absurd hu (h.lookup_eq_none.mp habsent u)
  obtain ⟨m', htouch, h', hkept, -⟩ := h₂.touch_eq (s := s) hlt
  refine ⟨m', .inr ⟨by simp only [insertNew_eq, hrun, ok_bind, hwrite, htouch, pure_eq_ok], ?_,
    hself ▸ h'⟩⟩
  rw [hspace, hkept]
  exact congrArg _ (space_of_matches (m := { m₁ with chains := c }) he).symm

private theorem admitsKey_eq (h : m.Represents config M) (key : Datum κ) :
    m.entries.admitsKey key = if config.key = key.representation then .ok () else
      .error (.wrongRepresentation .key config.key key.representation) := by
  rw [Entries.admitsKey, Column.check, h.sound.key, h.config]

private theorem admitsValue_eq (h : m.Represents config M) (value : Datum ν) :
    m.entries.admitsValue value =
      match config.value with
      | none => .error .noValueColumn
      | some r => if r = value.representation then .ok () else
          .error (.wrongRepresentation .value r value.representation) := by
  have hvalue : m.entries.values.map Column.representation = config.value :=
    h.config ▸ h.sound.value
  rw [← hvalue]
  cases hv : m.entries.values with
  | none => simp [Entries.admitsValue, hv]
  | some c => simp [Entries.admitsValue, hv, Column.check]

private theorem put_accepted (h : m.Represents config M) {key : Datum κ} {value : Datum ν}
    (hvalue : config.value = some value.representation) (hkey : config.key = key.representation)
    (grants : Allocator) :
    ∃ result m' M', m.put key value grants = .ok (result, m') ∧
      config.Answers M m.space (.put key value grants) (.ofExcept .value result) M' m'.space ∧
      m'.Represents config M' := by
  have hadmits : m.entries.admitsValue value = .ok () := by
    rw [h.admitsValue_eq, hvalue]
    exact if_pos rfl
  rcases h.find_cases key with ⟨s, hfind, hs, hlt, hpresent⟩ | ⟨hfind, habsent⟩
  · obtain ⟨e, hwrite, hrep, hspace⟩ := h.writeValue_eq hs hvalue
    obtain ⟨m', htouch, h', hkept, -⟩ := hrep.touch_eq (s := s) hlt
    refine ⟨.ok (m.entries.value s), m', _,
      by simp [put, hadmits, h.admitsKey_eq, hkey, hfind, hwrite, htouch], ?_, h'⟩
    rw [hkept, hspace]
    exact .putOver hvalue hkey hpresent
  · obtain ⟨m', ⟨requested, limit, hrun, hfull, h'⟩ | ⟨hrun, hroom, h'⟩⟩ :=
      h.insertNew_cases habsent hkey (some value) (by rintro v ⟨⟩; exact hvalue) grants
    · exact ⟨.error (.full requested limit), m', M,
        by simp [put, hadmits, h.admitsKey_eq, hkey, hfind, hrun, Except.map],
        .putFull hvalue hkey habsent hfull, h'⟩
    · exact ⟨.ok none, m', _,
        by simp [put, hadmits, h.admitsKey_eq, hkey, hfind, hrun, Except.map],
        .putNew hvalue hkey habsent hroom, h'⟩

private theorem put_answers (h : m.Represents config M) (key : Datum κ) (value : Datum ν)
    (grants : Allocator) :
    ∃ result m' M', m.put key value grants = .ok (result, m') ∧
      config.Answers M m.space (.put key value grants) (.ofExcept .value result) M' m'.space ∧
      m'.Represents config M' := by
  have hadmits := h.admitsValue_eq value
  cases hvalue : config.value with
  | none =>
      rw [hvalue] at hadmits
      exact ⟨.error _, m, M, by simp [put, hadmits], .putToSet hvalue, h⟩
  | some r =>
      rw [hvalue] at hadmits
      by_cases hr : r = value.representation
      · subst hr
        by_cases hkey : config.key = key.representation
        · exact h.put_accepted hvalue hkey grants
        · exact ⟨.error _, m, M, by simp [put, hadmits, h.admitsKey_eq, hkey],
            .putWrongKey hvalue hkey, h⟩
      · exact ⟨.error _, m, M, by simp [put, hadmits, hr], .putWrongValue hvalue hr, h⟩

private theorem add_answers (h : m.Represents config M) (key : Datum κ) (grants : Allocator) :
    ∃ result m' M', m.add key grants = .ok (result, m') ∧
      config.Answers M m.space (.add key grants) (.ofExcept .flag result) M' m'.space ∧
      m'.Represents config M' := by
  by_cases hkey : config.key = key.representation
  · rcases h.find_cases key with ⟨s, hfind, hs, hlt, -⟩ | ⟨hfind, habsent⟩
    · obtain ⟨m', htouch, h', hkept, -⟩ := h.touch_eq hlt
      refine ⟨.ok false, m', M, by simp [add, h.admitsKey_eq, hkey, hfind, htouch], ?_, h'⟩
      rw [hkept]
      exact .addAgain hkey (h.mem_iff.mpr ⟨s, hs⟩)
    · obtain ⟨m', ⟨requested, limit, hrun, hfull, h'⟩ | ⟨hrun, hroom, h'⟩⟩ :=
        h.insertNew_cases habsent hkey none (by simp) grants
      · exact ⟨.error (.full requested limit), m', M,
          by simp [add, h.admitsKey_eq, hkey, hfind, hrun, Except.map],
          .addFull hkey habsent hfull, h'⟩
      · exact ⟨.ok true, m', _, by simp [add, h.admitsKey_eq, hkey, hfind, hrun, Except.map],
          .addNew hkey habsent hroom, h'⟩
  · exact ⟨.error _, m, M, by simp [add, h.admitsKey_eq, hkey], .addWrongKey hkey, h⟩

private theorem get_answers (h : m.Represents config M) (key : Datum κ) :
    ∃ m', m.get key = .ok ((M.lookup key).join, m') ∧ m'.Represents config M ∧
      m'.space = m.space := by
  rcases h.find_cases key with ⟨s, hfind, hs, hlt, hpresent⟩ | ⟨hfind, habsent⟩
  · obtain ⟨m', htouch, h', hkept, hvalue⟩ := h.touch_eq hlt
    exact ⟨m', by simp [get, hfind, htouch, hvalue, hpresent], h', hkept⟩
  · exact ⟨m, by simp [get, hfind, habsent], h, rfl⟩

private theorem contains_answers (h : m.Represents config M) (key : Datum κ) :
    m.contains key = .ok (M.lookup key).isSome := by
  rcases h.find_cases key with ⟨s, hfind, -, -, hpresent⟩ | ⟨hfind, habsent⟩
  · simp [contains, hfind, hpresent]
  · simp [contains, hfind, habsent]

private theorem erase_answers (h : m.Represents config M) (key : Datum κ) :
    ∃ m', m.erase key = .ok ((M.lookup key).map (key, ·), m') ∧
      m'.Represents config (M.erase key) ∧ m'.space = m.space := by
  rcases h.find_cases key with ⟨s, hfind, hs, hlt, hpresent⟩ | ⟨hfind, habsent⟩
  · have hsound := h.sound
    obtain ⟨c, hremove, hdrops⟩ := Chains.remove_eq hsound.chains (hsound.hash?_of_holds hs) rfl
    have hcap := hdrops.capacity
    obtain ⟨recency, hreset, hstamped, hclock, -, hcells⟩ := reset_eq hlt hsound.stamped
    obtain ⟨e, htake, he, hkeys, hvalues⟩ := Entries.takeAt_eq hsound.room hlt
    have hchange : m.Changes { m with chains := c, recency, entries := e } s :=
      { fits :=
          { hsound.toFits with
            chains := hdrops.sound
            limited := hdrops.limited hsound.limited
            loadFactor := hdrops.loadFactor.trans hsound.loadFactor
            maxCapacity := hdrops.maxCapacity.trans hsound.maxCapacity
            capacity_le := hcap.trans_le hsound.capacity_le
            key := he.keys.trans hsound.key
            value := he.values.trans hsound.value
            room := by rw [hcap]; exact he.room hsound.room
            tracked := by
              rw [← hsound.tracked, ← Option.isSome_map (f := Recency.clock), hclock, clock,
                Option.isSome_map]
            stamped := by rw [hcap]; exact hstamped }
        config := rfl
        hasher := rfl
        hash := fun u hu => (hdrops.hash u).trans (if_neg hu)
        key := fun u hu => (hkeys u).trans (if_neg hu)
        value := fun u hu => (hvalues u).trans (if_neg hu) }
    have hempty : e.value s = m.config.emptyValue := by
      rw [hvalues, if_pos rfl, Entries.emptyValue_eq, hsound.value]
      rfl
    have hspace : ({ m with chains := c, recency, entries := e } : Map κ ν).space = m.space := by
      rw [← space_of_same_capacity hsound.chains hdrops.sound hcap]
      funext b
      cases b <;> simp [space, stampCells, he.keyCells, he.valueCells, hcells]
    refine ⟨_, ?_, hchange.represents_erase h hs ((hdrops.hash s).trans (if_pos rfl)) hempty,
      hspace⟩
    have hrun : m.chains.hashAt (some s) = .ok (m.hashOf key) :=
      Chains.hashAt_of_hash? (hsound.hash?_of_holds hs)
    simp [erase, hfind, hrun, hremove, hreset, htake, hs.2, hpresent]
  · have hsame : M.erase key = M := by
      refine Finmap.ext_lookup fun k => ?_
      by_cases hk : k = key
      · rw [hk, Finmap.lookup_erase, habsent]
      · rw [Finmap.lookup_erase_ne hk]
    exact ⟨m, by simp [erase, hfind, habsent], by rwa [hsame], rfl⟩

theorem clear_represents (h : m.Represents config M) : m.clear.Represents config ∅ := by
  have hsound := h.sound
  obtain ⟨hchains, hnone⟩ := Chains.clear_sound hsound.chains
  obtain ⟨hlike, hempty⟩ := Entries.clear_eq m.entries
  have hcap : m.clear.chains.capacity = m.chains.capacity := by
    simp [Map.clear, Chains.clear, Chains.capacity]
  have hstamped : Stamped m.clear.recency m.chains.capacity := by
    intro r hr
    obtain ⟨r', hr', rfl⟩ := Option.map_eq_some_iff.mp hr
    exact (hsound.stamped r' hr').trans_eq (Recency.clear_capacity r').symm
  have hfits : m.clear.Fits :=
    { hsound.toFits with
      chains := hchains
      limited := by rw [Chains.Limited, hcap]; exact hsound.limited
      capacity_le := by rw [hcap]; exact hsound.capacity_le
      key := hlike.keys.trans hsound.key
      value := hlike.values.trans hsound.value
      room := by rw [hcap]; exact hlike.room hsound.room
      tracked := Option.isSome_map.trans hsound.tracked
      stamped := by rw [hcap]; exact hstamped }
  rw [← h.config]
  refine of_empty hfits hnone fun s => ?_
  rw [show m.clear.entries.value s = m.entries.emptyValue from (hempty s).2,
    Entries.emptyValue_eq, hsound.value]
  rfl

theorem apply_answers (h : m.Represents config M) (op : Op κ ν) :
    ∃ reply m' M', m.apply op = .ok (reply, m') ∧
      config.Answers M m.space op reply M' m'.space ∧ m'.Represents config M' := by
  cases op with
  | put key value grants =>
      obtain ⟨result, m', M', hrun, hop, h'⟩ := h.put_answers key value grants
      exact ⟨_, m', M', by simp [apply, hrun], hop, h'⟩
  | add key grants =>
      obtain ⟨result, m', M', hrun, hop, h'⟩ := h.add_answers key grants
      exact ⟨_, m', M', by simp [apply, hrun], hop, h'⟩
  | get key =>
      obtain ⟨m', hrun, h', hspace⟩ := h.get_answers key
      exact ⟨.value (M.lookup key).join, m', M, by simp [apply, hrun],
        by rw [hspace]; exact .get, h'⟩
  | contains key => exact ⟨_, m, M, by simp [apply, h.contains_answers], .contains, h⟩
  | remove key =>
      obtain ⟨m', hrun, h', hspace⟩ := h.erase_answers key
      have hreply : ((M.lookup key).map (key, ·)).bind Prod.snd = (M.lookup key).join := by
        cases M.lookup key <;> rfl
      exact ⟨.value (M.lookup key).join, m', _, by simp [apply, Map.remove, hrun, hreply],
        by rw [hspace]; exact .remove, h'⟩
  | erase key =>
      obtain ⟨m', hrun, h', hspace⟩ := h.erase_answers key
      exact ⟨.entry ((M.lookup key).map (key, ·)), m', _, by simp [apply, hrun],
        by rw [hspace]; exact .erase, h'⟩
  | discard key =>
      obtain ⟨m', hrun, h', hspace⟩ := h.erase_answers key
      exact ⟨.flag (M.lookup key).isSome, m', _, by simp [apply, Map.discard, hrun],
        by rw [hspace]; exact .discard, h'⟩
  | clear => exact ⟨_, _, _, rfl, by rw [clear_space]; exact .clear, h.clear_represents⟩

theorem run_answers (h : m.Represents config M) (ops : List (Op κ ν)) :
    ∃ replies m' M', m.run ops = .ok (replies, m') ∧
      config.AnswersAll M m.space ops replies M' m'.space ∧ m'.Represents config M' := by
  induction ops generalizing m M with
  | nil => exact ⟨[], m, M, rfl, .nil, h⟩
  | cons op ops ih =>
      obtain ⟨reply, m₁, M₁, hrun, hop, h₁⟩ := h.apply_answers op
      obtain ⟨replies, m', M', hrest, hops, h'⟩ := ih h₁
      exact ⟨reply :: replies, m', M', by simp [run, hrun, hrest], .cons hop hops, h'⟩

theorem run_config (h : m.Represents config M) {ops : List (Op κ ν)} {replies : List (Reply κ ν)}
    {m' : Map κ ν} (hrun : m.run ops = .ok (replies, m')) : m'.config = config := by
  obtain ⟨_, m₁, M₁, hrun₁, -, h₁⟩ := h.run_answers ops
  cases hrun₁.symm.trans hrun
  exact h₁.config

end Represents

theorem Config.validate_eq_ok {config : Config} :
    config.validate = .ok () ↔ config.loadFactorInRange = true ∧
      (0 < config.maxCapacity ∧ config.maxCapacity ≤ maxSlots) ∧
      config.initialSlots ≤ config.maxCapacity := by
  unfold validate
  cases config.loadFactorInRange with
  | false => simp
  | true =>
      by_cases hmax : config.maxCapacity = 0 ∨ maxSlots < config.maxCapacity
      · simp only [hmax]
        refine iff_of_false (by simp) fun h => ?_
        omega
      · by_cases hslots : config.maxCapacity < config.initialSlots
        · simp [hmax, hslots]
        · simp only [hmax, hslots]
          refine iff_of_true (by simp) ⟨trivial, ?_⟩
          omega

private theorem Config.of_validate {config : Config} (h : config.validate = .ok ()) :
    config.initialSlots ≤ config.maxCapacity ∧ config.maxCapacity ≤ maxSlots :=
  have h := validate_eq_ok.mp h
  ⟨h.2.2, h.2.1.2⟩

theorem Config.initialSlots_pos (config : Config) : 0 < config.initialSlots := by
  unfold initialSlots ceilPowerOfTwo
  split
  · exact Nat.one_pos
  · exact Nat.pow_pos Nat.two_pos

omit [DecidableEq κ] in
theorem ofConfig_parts {config : Config} {hasher : κ → UInt64}
    (hnew : ofConfig config hasher = .ok m) :
    m.config = config ∧
      m.chains = .ofCapacity config.initialSlots config.loadFactor config.maxCapacity ∧
      m.entries = .ofCapacity config.key config.value config.initialSlots ∧
      m.recency = if config.trackAccess then some (.ofCapacity config.initialSlots) else none := by
  obtain ⟨_, -, hnew⟩ := bind_eq_ok.mp hnew
  obtain rfl := Except.ok.inj hnew
  exact ⟨rfl, rfl, rfl, rfl⟩

omit [DecidableEq κ] in
theorem ofConfig_space {config : Config} {hasher : κ → UInt64}
    (hnew : ofConfig config hasher = .ok m) : m.space = config.newSpace := by
  obtain ⟨-, hchains, hentries, hrecency⟩ := ofConfig_parts hnew
  obtain ⟨-, -, -, hkeys, hvalues⟩ :=
    Entries.ofCapacity_eq (κ := κ) (ν := ν) config.key config.value config.initialSlots
  funext b
  cases b
  case records | marks =>
    simp [space, hchains, Chains.ofCapacity, Arena.ofCapacity, Arena.capacity, Config.newSpace]
  case buckets => simp [space, hchains, Chains.ofCapacity, Chains.capacity, Config.newSpace]
  case keys => rw [space, hentries, hkeys, Config.newSpace]
  case values =>
    rw [space, hentries, hvalues, Config.newSpace, Config.isSet]
    cases config.value <;> rfl
  case counters =>
    rw [space, stampCells, hrecency, Config.newSpace]
    cases config.trackAccess <;> simp [Recency.ofCapacity, Recency.capacity]

theorem ofConfig_represents {config : Config} (h : config.validate = .ok ())
    (hasher : κ → UInt64) :
    ∃ m : Map κ ν, ofConfig config hasher = .ok m ∧ m.Represents config ∅ := by
  obtain ⟨hslots, hmax⟩ := Config.of_validate h
  obtain ⟨hchains, hnone⟩ := Chains.ofCapacity_sound config.initialSlots_pos config.loadFactor
    config.maxCapacity
  have hcap : (Chains.ofCapacity config.initialSlots config.loadFactor
      config.maxCapacity).capacity = config.initialSlots := by
    simp [Chains.ofCapacity, Chains.capacity]
  obtain ⟨hkey, hvalue, hroom, -⟩ :=
    Entries.ofCapacity_eq (κ := κ) (ν := ν) config.key config.value config.initialSlots
  let m : Map κ ν :=
    { config
      chains := .ofCapacity config.initialSlots config.loadFactor config.maxCapacity
      entries := .ofCapacity config.key config.value config.initialSlots
      recency := if config.trackAccess then some (.ofCapacity config.initialSlots) else none
      hasher }
  have hstamped : Stamped m.recency config.initialSlots := by
    intro r hr
    by_cases htrack : config.trackAccess = true
    · obtain rfl : Recency.ofCapacity config.initialSlots = r := by simpa [m, htrack] using hr
      simp [Recency.ofCapacity, Recency.capacity]
    · simp [m, htrack] at hr
  have hfits : m.Fits :=
    { chains := hchains
      limited := by rw [Chains.Limited, hcap]; rfl
      loadFactor := rfl
      maxCapacity := rfl
      capacity_le := hcap.trans_le hslots
      maxCapacity_le := hmax
      key := hkey
      value := hvalue
      room := by rw [hcap]; exact hroom
      tracked := by
        show (if config.trackAccess then some (Recency.ofCapacity config.initialSlots)
          else none).isSome = config.trackAccess
        cases config.trackAccess <;> rfl
      stamped := by rw [hcap]; exact hstamped }
  exact ⟨m, by simp [ofConfig, h, m],
    .of_empty hfits hnone fun s => (Entries.ofCapacity_empty _ _ _ s).2⟩

/-- Whatever is done to a new map, its replies are those of a finite map from keys of the map's
representation, and it counts and lists the bindings of this map. -/
theorem run_refines {config : Config} (h : config.validate = .ok ()) (hasher : κ → UInt64) :
    ∃ m₀ : Map κ ν, ofConfig config hasher = .ok m₀ ∧ ∀ ops : List (Op κ ν), ∃ replies m M,
      m₀.run ops = .ok (replies, m) ∧ config.AnswersAll ∅ config.newSpace ops replies M m.space ∧
        m.Lists M ∧ ∀ key ∈ M, key.representation = config.key := by
  obtain ⟨m₀, hnew, h₀⟩ := ofConfig_represents (ν := ν) h hasher
  refine ⟨m₀, hnew, fun ops => ?_⟩
  obtain ⟨replies, m, M, hrun, hanswers, hm⟩ := h₀.run_answers ops
  rw [ofConfig_space hnew] at hanswers
  refine ⟨replies, m, M, hrun, hanswers, hm.lists, fun key hkey => ?_⟩
  obtain ⟨s, hs⟩ := hm.mem_iff.mp hkey
  rw [← hm.config]
  exact hm.sound.representation_of_holds hs

theorem run_refines_int32 :
    ({ key := .int32, value := some .int32 } : Config).validate = .ok () ∧
      ∃ m₀ : Map String String,
        ofConfig { key := .int32, value := some .int32 } (fun _ => 0) = .ok m₀ ∧
          ∀ ops : List (Op String String), ∃ replies m M,
            m₀.run ops = .ok (replies, m) ∧
              Config.AnswersAll { key := .int32, value := some .int32 } ∅
                (Config.newSpace { key := .int32, value := some .int32 }) ops replies M m.space ∧
              m.Lists M ∧ ∀ key ∈ M, key.representation = .int32 :=
  ⟨by decide, run_refines (by decide) _⟩

/-- A map with values does not accept a key of another representation, nor a second key when it may
have one slot only. -/
theorem put_fails_with_values :
    ∃ m₀ m : Map String String,
      ofConfig { key := .int32, value := some .int32, initialCapacity := 1, maxCapacity := 1 }
          (fun _ => 0) = .ok m₀ ∧
        m₀.run [.put (.reference "a") (.int32 5) .addressable,
            .put (.int32 1) (.int32 5) .addressable, .put (.int32 2) (.int32 5) .addressable] =
          .ok ([.error (.wrongRepresentation .key .int32 .reference), .value none,
            .error (.full 2 1)], m) :=
  ⟨_, _, rfl, rfl⟩

end TableIndex.Map
