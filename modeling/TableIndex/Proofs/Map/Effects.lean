import TableIndex.Proofs.Map.TableRuns

/-!
# What operations do to slots

An operation leaves a map as it is, is refused space, changes one slot, or empties them all. What
stands in a slot, how far the clock is and how large the columns are follows from the case alone.
-/

namespace TableIndex.Map

variable {κ ν : Type} {m m' : Map κ ν} {s : Slot} {key : Datum κ}

/-- All that stands in a slot: the hash of a live one, a key, a value and a stamp. -/
structure Record (κ ν : Type) where
  hash : Option UInt64
  key : Option (Datum κ)
  value : Option (Datum ν)
  /-- If stamps are kept. -/
  stamp : Option Nat

def record (m : Map κ ν) (s : Slot) : Record κ ν :=
  ⟨m.chains.hash? s, m.entries.key s, m.entries.value s, m.mark s⟩

/-- A slot without a trace of a key. -/
def blank (m : Map κ ν) : Record κ ν :=
  ⟨none, Column.empty m.config.key, m.config.emptyValue, m.clock.map fun _ => 0⟩

theorem not_holds_of_free (h : m.chains.hash? s = none) : ¬ m.Holds s key := by
  intro hs
  obtain ⟨hash, hlive⟩ := hs.1
  cases hlive.symm.trans h

theorem holds_of_record (h : m'.record s = m.record s) : m'.Holds s key ↔ m.Holds s key := by
  have hhash : m'.chains.hash? s = m.chains.hash? s := congrArg Record.hash h
  have hkey : m'.entries.key s = m.entries.key s := congrArg Record.key h
  rw [Holds, Holds, hhash, hkey]

theorem Grows.record_eq (h : m.Grows m') (u : Slot) : m'.record u = m.record u := by
  rw [record, record, h.chains, h.key, h.value, h.mark]

private theorem Touches.record_eq (h : m.Touches m' s) (u : Slot) :
    m'.record u = if u = s then { m.record s with stamp := m'.clock } else m.record u := by
  rw [record, h.chains, h.key, h.value, h.mark]
  by_cases hu : u = s
  · rw [if_pos hu, if_pos hu, hu]
    rfl
  · rw [if_neg hu, if_neg hu]
    rfl

/-- The key that an operation is to bind, with its value if one is given. -/
def Op.binding? : Op κ ν → Option (Datum κ × Option (Datum ν))
  | .put key value _ => some (key, some value)
  | .add key _ => some (key, none)
  | _ => none

/-- What an operation with this reply does to a map, and which key it touches. -/
inductive Effect (op : Op κ ν) (m m' : Map κ ν) : Reply κ ν → Option (Datum κ) → Prop
  | kept {reply} (same : m' = m) : Effect op m m' reply none
  | refused {e} (grows : m.Grows m') : Effect op m m' (.error e) none
  | touched {reply s key v} (holds : m.Holds s key)
      (record : ∀ u, m'.record u =
        if u = s then { m.record s with value := v, stamp := m'.clock } else m.record u)
      (clock : m'.clock = m.clock.map (· + 1)) : Effect op m m' reply (some key)
  | taken {reply s key given} (binding : op.binding? = some (key, given))
      (vacant : m.chains.hash? s = none) (absent : ∀ u, ¬ m.Holds u key)
      (record : ∀ u, m'.record u =
        if u = s then ⟨some (m.hashOf key), some key, given.or m.config.emptyValue, m'.clock⟩
        else m.record u)
      (clock : m'.clock = m.clock.map (· + 1)) : Effect op m m' reply (some key)
  | dropped {reply s key} (holds : m.Holds s key)
      (record : ∀ u, m'.record u = if u = s then m.blank else m.record u)
      (clock : m'.clock = m.clock) : Effect op m m' reply none
  | cleared {reply} (record : ∀ u, m'.record u = m.blank) (clock : m'.clock = m.clock) :
      Effect op m m' reply none

variable {op : Op κ ν} {reply : Reply κ ν} {touched : Option (Datum κ)}

/-- No free slot shows a trace of a key. -/
def Swept (m : Map κ ν) : Prop := ∀ s, m.chains.hash? s = none → m.record s = m.blank

/-- A slot without a trace of a key, in a map with this configuration. -/
def Config.blank (config : Config) : Record κ ν :=
  ⟨none, Column.empty config.key, config.emptyValue, if config.trackAccess then some 0 else none⟩

namespace Effect

private theorem clock_zero (h : Effect op m m' reply touched) :
    (m'.clock.map fun _ => 0) = m.clock.map fun _ => 0 := by
  cases h with
  | kept same => rw [same]
  | refused grows => rw [grows.clock]
  | touched holds record clock => rw [clock, Option.map_map]; rfl
  | taken binding vacant absent record clock => rw [clock, Option.map_map]; rfl
  | dropped holds record clock => rw [clock]
  | cleared record clock => rw [clock]

private theorem blank_eq (h : Effect op m m' reply touched) (hconfig : m'.config = m.config) :
    m'.blank = m.blank := by
  rw [blank, blank, hconfig, h.clock_zero]

private theorem record_of_free (h : Effect op m m' reply touched) (hs : m'.chains.hash? s = none) :
    m.chains.hash? s = none ∧ m'.record s = m.record s ∨ m'.record s = m.blank := by
  have hfree : (m'.record s).hash = none := hs
  cases h with
  | kept same => exact .inl (same ▸ ⟨hs, rfl⟩)
  | refused grows => exact .inl ⟨grows.chains ▸ hs, grows.record_eq s⟩
  | touched holds record clock =>
      rw [record] at hfree ⊢
      split at hfree
      · exact absurd holds (not_holds_of_free hfree)
      · next hne => exact .inl ⟨hfree, if_neg hne⟩
  | taken binding vacant absent record clock =>
      rw [record] at hfree ⊢
      split at hfree
      · cases hfree
      · next hne => exact .inl ⟨hfree, if_neg hne⟩
  | dropped holds record clock =>
      rw [record] at hfree ⊢
      split at hfree
      · next heq => exact .inr (if_pos heq)
      · next hne => exact .inl ⟨hfree, if_neg hne⟩
  | cleared record clock => exact .inr (record s)

private theorem swept (h : Effect op m m' reply touched) (hconfig : m'.config = m.config)
    (hm : m.Swept) : m'.Swept := by
  intro s hs
  rw [h.blank_eq hconfig]
  rcases h.record_of_free hs with ⟨hfree, hsame⟩ | hblank
  · exact hsame.trans (hm s hfree)
  · exact hblank

end Effect

variable [DecidableEq κ]

/-- The key that an operation with this reply touches: one that it binds or finds bound, and one
that it reads. -/
def touched? (m : Map κ ν) (op : Op κ ν) (reply : Reply κ ν) : Checked (Option (Datum κ)) :=
  match op, reply with
  | .put key _ _, .value _ => .ok (some key)
  | .add key _, .flag _ => .ok (some key)
  | .get key, _ => return if ← m.contains key then some key else none
  | _, _ => .ok none

private theorem Sound.holds_of_find (h : m.Sound) (hfind : m.find key = .ok (some s)) :
    m.Holds s key := by
  rcases Map.find_cases h key with ⟨u, hu, hholds⟩ | ⟨hnone, -⟩
  · cases hu.symm.trans hfind
    exact hholds
  · cases hnone.symm.trans hfind

private theorem Sound.absent_of_find (h : m.Sound) (hfind : m.find key = .ok none) (u : Slot) :
    ¬ m.Holds u key := by
  rcases Map.find_cases h key with ⟨u, hu, -⟩ | ⟨-, hnone⟩
  · cases hu.symm.trans hfind
  · exact hnone u

private theorem Sound.touch_effect (h : m.Sound) (hfind : m.find key = .ok (some s))
    (hrun : m.touch (some s) = .ok m') : Effect op m m' reply (some key) := by
  have hs := h.holds_of_find hfind
  obtain ⟨m₁, hrun₁, htouches⟩ := touch_eq (h.lt_capacity hs.1.choose_spec) h.stamped
  cases hrun₁.symm.trans hrun
  exact .touched (v := m.entries.value s) hs htouches.record_eq htouches.clock

private theorem Sound.write_effect (h : m.Sound) (hfind : m.find key = .ok (some s))
    {value : Datum ν}
    (hvalue : m.entries.values.map Column.representation = some value.representation)
    {old : Option (Datum ν)} {e : Entries κ ν}
    (hwrite : m.entries.writeValue (some s) value = .ok (old, e))
    (hrun : ({ m with entries := e } : Map κ ν).touch (some s) = .ok m') :
    Effect op m m' reply (some key) := by
  have hs := h.holds_of_find hfind
  have hlt := h.lt_capacity hs.1.choose_spec
  obtain ⟨e₁, hwrite₁, -, hkey, hbound⟩ := Entries.writeValue_eq h.room hlt hvalue
  cases hwrite₁.symm.trans hwrite
  obtain ⟨m₁, hrun₁, htouches⟩ := touch_eq (m := { m with entries := e }) hlt h.stamped
  cases hrun₁.symm.trans hrun
  have hwritten : ∀ u, ({ m with entries := e } : Map κ ν).record u =
      if u = s then { m.record s with value := some value } else m.record u := by
    intro u
    simp only [record, hkey, hbound]
    by_cases hu : u = s
    · rw [if_pos hu, if_pos hu, hu]
      rfl
    · rw [if_neg hu, if_neg hu]
      rfl
  refine .touched (v := some value) hs (fun u => ?_) htouches.clock
  rw [htouches.record_eq, hwritten, hwritten, if_pos rfl]
  split <;> rfl

private theorem Sound.insertNew_effect (h : m.Sound) {value : Option (Datum ν)} {grants : Allocator}
    (hfind : m.find key = .ok none) (hkey : key.representation = m.config.key)
    (hvalue : ∀ v, value = some v → m.config.value = some v.representation)
    (hbinding : op.binding? = some (key, value)) {result : Except Error Unit}
    (hrun : m.insertNew key value grants = .ok (result, m')) :
    (∃ e, result = .error e ∧ ∀ e', Effect op m m' (.error e') none) ∨
      result = .ok () ∧ ∀ reply, Effect op m m' reply (some key) := by
  obtain ⟨m₁, hgrows, ⟨requested, limit, hfull, -⟩ |
    ⟨s, c, htaken, hadds, -, hroom, hstamped, -⟩⟩ := allocate_cases h (m.hashOf key) grants
  · rcases insertNew_steps hrun with ⟨e, hallocate, rfl⟩ | ⟨s, m₂, e, hallocate, -, -, -⟩
    · cases hfull.symm.trans hallocate
      exact .inl ⟨_, rfl, fun _ => .refused hgrows⟩
    · cases hfull.symm.trans hallocate
  rcases insertNew_steps hrun with ⟨e, hallocate, -⟩ | ⟨s', m₂, e, hallocate, hwrite, htouch, rfl⟩
  · cases htaken.symm.trans hallocate
  cases htaken.symm.trans hallocate
  have hlt : s < c.capacity := by
    obtain ⟨cell, hcell, -⟩ := Chains.hash?_eq_some.mp ((hadds.hash s).trans (if_pos rfl))
    exact (Arena.lt_capacity hcell).trans_eq hadds.sound.capacity_eq
  obtain ⟨e₁, hwrite₁, -, hkeys, hvalues⟩ := Entries.writeEntry_eq hroom hlt
    (hkey.trans (h.key ▸ hgrows.entries.keys.symm))
    fun v hv => hgrows.entries.values.trans (h.value.trans (hvalue v hv))
  cases hwrite₁.symm.trans hwrite
  obtain ⟨m₃, htouch₁, htouches⟩ :=
    touch_eq (m := { m₁ with chains := c, entries := e }) hlt hstamped
  cases htouch₁.symm.trans htouch
  refine .inr ⟨rfl, fun reply => .taken hbinding hadds.fresh (h.absent_of_find hfind) (fun u => ?_)
    (htouches.clock.trans (congrArg _ hgrows.clock))⟩
  rw [htouches.record_eq]
  simp only [record, hadds.hash, hkeys, hvalues, hgrows.key, hgrows.value]
  by_cases hu : u = s
  · simp only [hu, if_true, h.emptied s hadds.fresh]
  · simp only [hu, if_false]
    exact congrArg _ (hgrows.mark u)

private theorem Sound.erase_effect (h : m.Sound) {entry : Option (Datum κ × Option (Datum ν))}
    (hrun : m.erase key = .ok (entry, m')) : Effect op m m' reply none := by
  rcases erase_steps hrun with hsame | ⟨s, hash, c, recency, taken, e, hfind, hremove, hreset,
    htake, rfl⟩
  · exact .kept hsame
  have hs := h.holds_of_find hfind
  have hlt := h.lt_capacity hs.1.choose_spec
  have hdropped : ∀ u, c.hash? u = if u = s then none else m.chains.hash? u := by
    obtain ⟨answer, hremove₁, hremoves, -⟩ := h.valid.remove_answer hash (some s)
    cases hremove₁.symm.trans hremove
    cases hremoves with
    | removed live inBucket removed => exact removed
  obtain ⟨r, hreset₁, -, hclock, hmark, -⟩ := reset_eq hlt h.stamped
  cases hreset₁.symm.trans hreset
  obtain ⟨e₁, htake₁, -, hkeys, hvalues⟩ := Entries.takeAt_eq h.room hlt
  cases htake₁.symm.trans htake
  refine .dropped hs (fun u => ?_) hclock
  have hkey : m.entries.emptyKey = Column.empty m.config.key := congrArg _ h.key
  have hvalue : m.entries.emptyValue = m.config.emptyValue := by
    rw [Entries.emptyValue_eq, h.value]
    rfl
  simp only [record, hdropped, hkeys, hvalues, hkey, hvalue]
  by_cases hu : u = s
  · simp only [if_pos hu]
    exact congrArg _ ((hmark u).trans (if_pos hu))
  · simp only [if_neg hu]
    exact congrArg _ ((hmark u).trans (if_neg hu))

omit [DecidableEq κ] in
private theorem Sound.clear_effect (h : m.Sound) : Effect op m m.clear reply none := by
  obtain ⟨-, hempty⟩ := Entries.clear_eq m.entries
  have hclock : m.clear.clock = m.clock := by
    simp [clock, Map.clear, Option.map_map, Function.comp_def, Recency.clear]
  have hmark : ∀ u, m.clear.mark u = m.clock.map fun _ => 0 := by
    intro u
    simp [mark, clock, Map.clear, Option.map_map, Function.comp_def, Recency.clear_mark]
  refine .cleared (fun u => ?_) hclock
  have hkey : m.clear.entries.key u = Column.empty m.config.key :=
    (hempty u).1.trans (congrArg _ h.key)
  have hvalue : m.clear.entries.value u = m.config.emptyValue := by
    rw [show m.clear.entries.value u = _ from (hempty u).2, Entries.emptyValue_eq, h.value]
    rfl
  rw [record, show m.clear.chains.hash? u = none from (Chains.clear_sound h.chains).2 u, hkey,
    hvalue, hmark]
  rfl

private theorem Sound.put_effect (h : m.Sound) {value : Datum ν} {grants : Allocator}
    {result : Except Error (Option (Datum ν))} (hrun : m.put key value grants = .ok (result, m')) :
    (∃ e, result = .error e ∧ ∀ e', Effect (.put key value grants) m m' (.error e') none) ∨
      ∃ old, result = .ok old ∧
        ∀ reply, Effect (.put key value grants) m m' reply (some key) := by
  rcases put_steps hrun with ⟨hsame, e, hresult⟩ |
    ⟨hvalue, hkey, ⟨s, old, e, hfind, hwrite, htouch, hresult⟩ |
      ⟨hfind, inserted, hinsert, rfl⟩⟩
  · exact .inl ⟨e, hresult, fun _ => .kept hsame⟩
  · have hvalue := Entries.representation_of_admitsValue hvalue
    exact .inr ⟨old, hresult, fun _ => h.write_effect hfind hvalue hwrite htouch⟩
  · have hkey := (Entries.representation_of_admitsKey hkey).trans h.key
    have hvalue : ∀ v, some value = some v → m.config.value = some v.representation := by
      rintro _ ⟨⟩
      exact h.value.symm.trans (Entries.representation_of_admitsValue hvalue)
    have hbinding : (Op.put key value grants).binding? = some (key, some value) := rfl
    rcases h.insertNew_effect hfind hkey hvalue hbinding hinsert with
      ⟨e, rfl, heffect⟩ | ⟨rfl, heffect⟩
    · exact .inl ⟨e, rfl, heffect⟩
    · exact .inr ⟨none, rfl, heffect⟩

private theorem Sound.add_effect (h : m.Sound) {grants : Allocator} {result : Except Error Bool}
    (hrun : m.add key grants = .ok (result, m')) :
    (∃ e, result = .error e ∧ ∀ e', Effect (.add key grants) m m' (.error e') none) ∨
      ∃ b, result = .ok b ∧ ∀ reply, Effect (.add key grants) m m' reply (some key) := by
  rcases add_steps hrun with ⟨hsame, e, hresult⟩ |
    ⟨hkey, ⟨s, hfind, htouch, hresult⟩ | ⟨hfind, inserted, hinsert, rfl⟩⟩
  · exact .inl ⟨e, hresult, fun _ => .kept hsame⟩
  · exact .inr ⟨false, hresult, fun _ => h.touch_effect hfind htouch⟩
  · have hkey := (Entries.representation_of_admitsKey hkey).trans h.key
    have hbinding : (Op.add key grants : Op κ ν).binding? = some (key, none) := rfl
    rcases h.insertNew_effect hfind hkey (by simp) hbinding hinsert with
      ⟨e, rfl, heffect⟩ | ⟨rfl, heffect⟩
    · exact .inl ⟨e, rfl, heffect⟩
    · exact .inr ⟨true, rfl, heffect⟩

private theorem Sound.get_effect (h : m.Sound) {value : Option (Datum ν)}
    (hrun : m.get key = .ok (value, m')) :
    ∃ touched, m.touched? (.get key) reply = .ok touched ∧
      Effect (.get key) m m' reply touched := by
  rcases get_steps hrun with ⟨hfind, hsame⟩ | ⟨s, hfind, htouch⟩
  · exact ⟨none, by simp [touched?, contains, hfind], .kept hsame⟩
  · exact ⟨some key, by simp [touched?, contains, hfind], h.touch_effect hfind htouch⟩

/-- Every operation has one of the effects, and touches the key that its reply tells. -/
theorem Sound.apply_effect (h : m.Sound) (hrun : m.apply op = .ok (reply, m')) :
    ∃ touched, m.touched? op reply = .ok touched ∧ Effect op m m' reply touched := by
  cases op with
  | put key value grants =>
      obtain ⟨⟨result, m₁⟩, hput, hrun⟩ := bind_eq_ok.mp hrun
      cases hrun
      rcases h.put_effect hput with ⟨e, rfl, heffect⟩ | ⟨old, rfl, heffect⟩
      · exact ⟨none, rfl, heffect e⟩
      · exact ⟨some key, rfl, heffect _⟩
  | add key grants =>
      obtain ⟨⟨result, m₁⟩, hadd, hrun⟩ := bind_eq_ok.mp hrun
      cases hrun
      rcases h.add_effect hadd with ⟨e, rfl, heffect⟩ | ⟨b, rfl, heffect⟩
      · exact ⟨none, rfl, heffect e⟩
      · exact ⟨some key, rfl, heffect _⟩
  | get key =>
      obtain ⟨⟨value, m₁⟩, hget, hrun⟩ := bind_eq_ok.mp hrun
      cases hrun
      exact h.get_effect hget
  | contains key =>
      obtain ⟨found, -, hrun⟩ := bind_eq_ok.mp hrun
      cases hrun
      exact ⟨none, rfl, .kept rfl⟩
  | remove key =>
      obtain ⟨⟨value, m₁⟩, hremove, hrun⟩ := bind_eq_ok.mp hrun
      cases hrun
      obtain ⟨⟨entry, m₂⟩, herase, hremove⟩ := bind_eq_ok.mp hremove
      cases hremove
      exact ⟨none, rfl, h.erase_effect herase⟩
  | erase key =>
      obtain ⟨⟨entry, m₁⟩, herase, hrun⟩ := bind_eq_ok.mp hrun
      cases hrun
      exact ⟨none, rfl, h.erase_effect herase⟩
  | discard key =>
      obtain ⟨⟨found, m₁⟩, hdiscard, hrun⟩ := bind_eq_ok.mp hrun
      cases hrun
      obtain ⟨⟨entry, m₂⟩, herase, hdiscard⟩ := bind_eq_ok.mp hdiscard
      cases hdiscard
      exact ⟨none, rfl, h.erase_effect herase⟩
  | clear =>
      cases hrun
      exact ⟨none, rfl, h.clear_effect⟩

/-- Whatever each operation of a run keeps holds after the run. -/
theorem Represents.run_induction {config : Config} {P : Map κ ν → Prop} {ops : List (Op κ ν)}
    (hstep : ∀ op ∈ ops, ∀ (m m' : Map κ ν) (M M' : Bindings κ ν) (reply : Reply κ ν),
      m.Represents config M → m'.Represents config M' → m.apply op = .ok (reply, m') →
        config.Answers M m.space op reply M' m'.space → P m → P m')
    {M : Bindings κ ν} (h : m.Represents config M) (hm : P m) {replies : List (Reply κ ν)}
    (hrun : m.run ops = .ok (replies, m')) : P m' := by
  induction ops generalizing m M replies with
  | nil =>
      cases hrun
      exact hm
  | cons op ops ih =>
      obtain ⟨reply, m₁, M₁, hop, hanswer, h₁⟩ := h.apply_answers op
      rw [run, hop, ok_bind] at hrun
      obtain ⟨⟨rest, m₂⟩, hrest, hrun⟩ := bind_eq_ok.mp hrun
      cases hrun
      exact ih (fun op' hop' => hstep op' (List.mem_cons_of_mem _ hop')) h₁
        (hstep op (List.mem_cons_self ..) m m₁ M M₁ reply h h₁ hop hanswer hm) hrest

omit [DecidableEq κ] in
theorem ofConfig_swept {config : Config} {hasher : κ → UInt64}
    (hnew : ofConfig config hasher = .ok m) : m.Swept ∧ m.blank = config.blank := by
  obtain ⟨hconfig, hchains, hentries, hrecency⟩ := ofConfig_parts hnew
  have hblank : m.blank = config.blank := by
    rw [blank, Config.blank, hconfig, clock, hrecency]
    cases config.trackAccess <;> rfl
  refine ⟨fun s hs => ?_, hblank⟩
  obtain ⟨hkey, hvalue⟩ :=
    Entries.ofCapacity_empty (κ := κ) (ν := ν) config.key config.value config.initialSlots s
  rw [hblank, record, hs, hentries, hkey, hvalue, mark, hrecency, Config.blank]
  cases config.trackAccess with
  | true => simp [Recency.ofCapacity_mark, Config.emptyValue]
  | false => rfl

/-- However a new map is used, no free slot shows a trace of a key. -/
theorem Represents.run_swept {config : Config} {M : Bindings κ ν} {ops : List (Op κ ν)}
    {replies : List (Reply κ ν)} (h : m.Represents config M)
    (hm : m.Swept ∧ m.blank = config.blank) (hrun : m.run ops = .ok (replies, m')) :
    m'.Swept ∧ m'.blank = config.blank := by
  refine h.run_induction (P := fun m => m.Swept ∧ m.blank = config.blank)
    (fun op _ m₁ m₂ M₁ M₂ reply h₁ h₂ hop _ hm₁ => ?_) hm hrun
  obtain ⟨touched, -, heffect⟩ := h₁.sound.apply_effect hop
  have hconfig : m₂.config = m₁.config := h₂.config.trans h₁.config.symm
  exact ⟨heffect.swept hconfig hm₁.1, (heffect.blank_eq hconfig).trans hm₁.2⟩

end TableIndex.Map
