import TableIndex.Proofs.Map.Effects
import TableIndex.Proofs.Map.View

/-!
# What stamps say of keys

Stamps stand in slots, which are released, given out again and cleared while the clock goes on. All
the same, the stamp of a key in the map is the number of touches up to the last one of this key, and
the key with the least stamp is the one that has not been touched for the longest time.
-/

namespace TableIndex.Map

variable {κ ν : Type} [DecidableEq κ]

/-- The keys that a run touches, one for each touch. -/
def touches (m : Map κ ν) : List (Op κ ν) → Checked (List (Datum κ))
  | [] => .ok []
  | op :: ops => do
      let (reply, m') ← m.apply op
      let touched ← m.touched? op reply
      return touched.toList ++ (← m'.touches ops)

/-- The number of touches up to the last one of a key, 0 if there was none. -/
def lastTouch (touched : List (Datum κ)) (key : Datum κ) : Nat :=
  touched.length - touched.reverse.idxOf key

section

variable {touched : List (Datum κ)} {key key' : Datum κ}

private theorem lastTouch_concat (touched : List (Datum κ)) (key key' : Datum κ) :
    lastTouch (touched ++ [key']) key =
      if key = key' then touched.length + 1 else lastTouch touched key := by
  rw [lastTouch, List.reverse_append, List.reverse_singleton, List.singleton_append,
    List.idxOf_cons, List.length_append, List.length_singleton]
  by_cases h : key = key'
  · simp [h]
  · rw [if_neg h, lastTouch, beq_false_of_ne (Ne.symm h)]
    exact Nat.add_sub_add_right ..

private theorem lastTouch_split (h : key ∈ touched) :
    ∃ before after, touched = before ++ key :: after ∧ key ∉ after ∧
      lastTouch touched key = before.length + 1 := by
  induction touched using List.reverseRecOn with
  | nil => cases h
  | append_singleton touched last ih =>
      rw [lastTouch_concat]
      by_cases hlast : key = last
      · exact ⟨touched, [], by rw [hlast], List.not_mem_nil, if_pos hlast⟩
      · obtain ⟨before, after, hsplit, hafter, hlength⟩ := ih (by simpa [hlast] using h)
        refine ⟨before, after ++ [last], ?_, by simp [hafter, hlast], ?_⟩
        · rw [hsplit, List.append_assoc, List.cons_append]
        · rw [if_neg hlast, hlength]

private theorem lastTouch_pos (h : key ∈ touched) : 0 < lastTouch touched key := by
  obtain ⟨before, after, -, -, hlength⟩ := lastTouch_split h
  exact hlength ▸ Nat.succ_pos _

private theorem lastTouch_inj (h : key ∈ touched) (h' : key' ∈ touched) :
    lastTouch touched key = lastTouch touched key' ↔ key = key' := by
  obtain ⟨before, after, hsplit, -, hlength⟩ := lastTouch_split h
  obtain ⟨before', after', hsplit', -, hlength'⟩ := lastTouch_split h'
  constructor
  · intro heq
    have hbefore : before.length = before'.length := by omega
    have htails := List.append_inj_right (hsplit.symm.trans hsplit') hbefore
    exact (List.cons.inj htails).1
  · exact congrArg _

end

/-- Two keys, one touched again. -/
example : lastTouch [.int32 1, .int32 2, .int32 1] (.int32 1 : Datum String) = 3 ∧
    lastTouch [.int32 1, .int32 2, .int32 1] (.int32 2 : Datum String) = 2 ∧
    lastTouch [.int32 1, .int32 2, .int32 1] (.int32 3 : Datum String) = 0 := by decide

variable {m m' : Map κ ν} {touched : List (Datum κ)} {op : Op κ ν} {reply : Reply κ ν}

/-- After these touches, the clock counts them and a live slot has the stamp of its key. -/
structure Stamps (m : Map κ ν) (touched : List (Datum κ)) : Prop where
  clock : m.clock = some touched.length
  live : ∀ s key, m.Holds s key → key ∈ touched ∧ m.mark s = some (lastTouch touched key)

private theorem Stamps.kept (h : m.Stamps touched) (hclock : m'.clock = m.clock)
    (hrecord : ∀ u key, m'.Holds u key → m'.record u = m.record u) : m'.Stamps touched where
  clock := hclock.trans h.clock
  live := by
    intro u key hu
    have hsame := hrecord u key hu
    obtain ⟨hmem, hmark⟩ := h.live u key ((holds_of_record hsame).mp hu)
    exact ⟨hmem, (congrArg Record.stamp hsame).trans hmark⟩

private theorem Stamps.touch (h : m.Stamps touched) {s : Slot} {key : Datum κ} {r : Record κ ν}
    (hrecord : ∀ u, m'.record u = if u = s then r else m.record u) (hkey : r.key = some key)
    (hstamp : r.stamp = m'.clock) (hclock : m'.clock = m.clock.map (· + 1))
    (hother : ∀ u, u ≠ s → ¬ m.Holds u key) : m'.Stamps (touched ++ [key]) := by
  have hticks : m'.clock = some (touched.length + 1) := by rw [hclock, h.clock]; rfl
  refine ⟨hticks.trans (by simp), fun u k hu => ?_⟩
  rw [lastTouch_concat]
  by_cases hus : u = s
  · have hs : m'.record u = r := (hrecord u).trans (if_pos hus)
    obtain rfl : k = key :=
      Option.some.inj (hu.2.symm.trans ((congrArg Record.key hs).trans hkey))
    refine ⟨by simp, ?_⟩
    rw [if_pos rfl, ← hticks, ← hstamp]
    exact congrArg Record.stamp hs
  · have hsame : m'.record u = m.record u := (hrecord u).trans (if_neg hus)
    have hu := (holds_of_record hsame).mp hu
    obtain ⟨hmem, hmark⟩ := h.live u k hu
    have hk : k ≠ key := fun e => hother u hus (e ▸ hu)
    rw [if_neg hk]
    exact ⟨List.mem_append_left _ hmem, (congrArg Record.stamp hsame).trans hmark⟩

private theorem Effect.stamps {key? : Option (Datum κ)} (he : Effect op m m' reply key?)
    (hm : m.Sound) (h : m.Stamps touched) : m'.Stamps (touched ++ key?.toList) := by
  cases he with
  | kept same =>
      rw [same, Option.toList_none, List.append_nil]
      exact h
  | refused grows =>
      rw [Option.toList_none, List.append_nil]
      exact h.kept grows.clock fun u _ _ => grows.record_eq u
  | @touched _ s key value holds record clock =>
      exact h.touch record holds.2 rfl clock fun u hu hheld =>
        hu (hm.distinct u s key hheld holds)
  | taken binding vacant absent record clock =>
      exact h.touch record rfl rfl clock fun u _ => absent u
  | @dropped _ s key holds record clock =>
      rw [Option.toList_none, List.append_nil]
      refine h.kept clock fun u k hu => ?_
      rw [record]
      split
      · next hus =>
          have hfree := congrArg Record.hash ((record u).trans (if_pos hus))
          exact absurd hu (not_holds_of_free hfree)
      · rfl
  | cleared record clock =>
      rw [Option.toList_none, List.append_nil]
      have hfree : ∀ u, m'.chains.hash? u = none := fun u => congrArg Record.hash (record u)
      exact h.kept clock fun u k hu => absurd hu (not_holds_of_free (hfree u))

private theorem Represents.run_stamps {config : Config} {M : Bindings κ ν}
    (h : m.Represents config M) (hm : m.Stamps touched) (ops : List (Op κ ν)) :
    ∃ replies m' M' more, m.run ops = .ok (replies, m') ∧ m.touches ops = .ok more ∧
      m'.Represents config M' ∧ m'.Stamps (touched ++ more) := by
  induction ops generalizing m M touched with
  | nil => exact ⟨[], m, M, [], rfl, rfl, h, by rwa [List.append_nil]⟩
  | cons op ops ih =>
      obtain ⟨reply, m₁, M₁, hop, -, h₁⟩ := h.apply_answers op
      obtain ⟨key?, htouched, heffect⟩ := h.sound.apply_effect hop
      obtain ⟨replies, m', M', more, hrun, hmore, h', hm'⟩ := ih h₁ (heffect.stamps h.sound hm)
      refine ⟨reply :: replies, m', M', key?.toList ++ more, ?_, ?_, h', ?_⟩
      · simp only [run, hop, hrun, ok_bind, pure_eq_ok]
      · simp only [touches, hop, htouched, hmore, ok_bind, pure_eq_ok]
      · rwa [← List.append_assoc]

/-- What a map that keeps stamps says after these touches. -/
structure Recent (m : Map κ ν) (touched : List (Datum κ)) : Prop where
  stamp : ∀ key, m.contains key = .ok true →
    m.stamp key = .ok (some (lastTouch touched key)) ∧ 0 < lastTouch touched key
  absent : ∀ key, m.contains key = .ok false → m.stamp key = .ok none
  distinct : ∀ key key', m.contains key = .ok true → m.contains key' = .ok true → key ≠ key' →
    lastTouch touched key ≠ lastTouch touched key'
  /-- The counters themselves, slot by slot. -/
  marks : ∀ s, ∃ mark, m.mark s = some mark ∧
    (m.chains.contains (some s) = false → mark = 0) ∧
    ∀ key, m.Holds s key → mark = lastTouch touched key
  leastRecent : ∃ key?, m.leastRecent = .ok key? ∧ (key? = none ↔ m.size = 0) ∧
    ∀ key, key? = some key → m.contains key = .ok true ∧
      ∀ key', m.contains key' = .ok true → key' ≠ key →
        lastTouch touched key < lastTouch touched key'

private theorem Sound.contains_of_holds (h : m.Sound) {s : Slot} {key : Datum κ}
    (hs : m.Holds s key) :
    m.contains key = .ok true := by
  simp [contains, h.find_of_holds hs]

private theorem Sound.holds_of_contains (h : m.Sound) {key : Datum κ}
    (hkey : m.contains key = .ok true) :
    ∃ s, m.Holds s key := by
  rcases Map.find_cases h key with ⟨s, -, hs⟩ | ⟨hfind, -⟩
  · exact ⟨s, hs⟩
  · simp [contains, hfind] at hkey

private theorem Sound.find_of_not_contains (h : m.Sound) {key : Datum κ}
    (hkey : m.contains key = .ok false) : m.find key = .ok none := by
  rcases Map.find_cases h key with ⟨s, hfind, -⟩ | ⟨hfind, -⟩
  · simp [contains, hfind] at hkey
  · exact hfind

private theorem Stamps.recent (h : m.Stamps touched) (hm : m.Sound) (hswept : m.Swept) :
    m.Recent touched where
  stamp := by
    intro key hkey
    obtain ⟨s, hs⟩ := hm.holds_of_contains hkey
    obtain ⟨hmem, hmark⟩ := h.live s key hs
    exact ⟨(hm.stamp_of_holds hs).trans (congrArg _ hmark), lastTouch_pos hmem⟩
  absent := fun key hkey => stamp_of_absent (hm.find_of_not_contains hkey)
  distinct := by
    intro key key' hkey hkey' hne
    obtain ⟨s, hs⟩ := hm.holds_of_contains hkey
    obtain ⟨s', hs'⟩ := hm.holds_of_contains hkey'
    exact mt (lastTouch_inj (h.live s key hs).1 (h.live s' key' hs').1).mp hne
  marks := by
    intro s
    cases hlive : m.chains.hash? s with
    | none =>
        have hblank : m.mark s = some 0 := by
          have hstamp := congrArg Record.stamp (hswept s hlive)
          rwa [blank, h.clock] at hstamp
        exact ⟨0, hblank, fun _ => rfl, fun key hs => absurd hs (not_holds_of_free hlive)⟩
    | some hash =>
        obtain ⟨key, hkey, -⟩ := hm.hashed s hash hlive
        refine ⟨_, (h.live s key ⟨⟨hash, hlive⟩, hkey⟩).2, fun hfree => ?_, fun key' hs => ?_⟩
        · cases hlive.symm.trans (Chains.hash?_eq_none.mpr hfree)
        · rw [Option.some.inj (hkey.symm.trans hs.2)]
  leastRecent := by
    rcases hm.leastRecent_cases (h.clock ▸ rfl) with ⟨hnone, hempty⟩ | ⟨s, key, hrun, hs, hle⟩
    · exact ⟨none, hnone, iff_of_true rfl hempty, by simp⟩
    · have hpos : m.size ≠ 0 := by
        rw [size, Chains.size, ← Arena.length_inUse hm.chains.links]
        exact List.length_pos_of_mem (hm.mem_inUse.mpr hs.1) |>.ne'
      refine ⟨some key, hrun, iff_of_false (by simp) hpos, ?_⟩
      rintro _ ⟨⟩
      refine ⟨hm.contains_of_holds hs, fun key' hkey' hne => ?_⟩
      obtain ⟨u, hu⟩ := hm.holds_of_contains hkey'
      obtain ⟨hmem, hmark⟩ := h.live s key hs
      obtain ⟨hmem', hmark'⟩ := h.live u key' hu
      exact (hle u key' hu _ _ hmark hmark').lt_of_ne
        fun heq => hne ((lastTouch_inj hmem hmem').mp heq).symm

/-- However a new map that keeps stamps is used, the stamp of a key in it is the number of touches
up to the last one of this key, free slots have none, and the key named as the least recent is the
one whose last touch is the earliest. -/
theorem run_recent {config : Config} (hvalid : config.validate = .ok ())
    (htrack : config.trackAccess = true) (hasher : κ → UInt64) (ops : List (Op κ ν)) :
    ∃ m₀ replies m touched, ofConfig config hasher = .ok m₀ ∧
      m₀.run ops = .ok (replies, m) ∧ m₀.touches ops = .ok touched ∧ m.Recent touched := by
  obtain ⟨m₀, hnew, h₀⟩ := ofConfig_represents (ν := ν) hvalid hasher
  have hstamps₀ : m₀.Stamps [] := by
    obtain ⟨-, hchains, -, hrecency⟩ := ofConfig_parts hnew
    have hfree : ∀ s, m₀.chains.hash? s = none :=
      hchains ▸ (Chains.ofCapacity_sound config.initialSlots_pos _ _).2
    refine ⟨?_, fun s key hs => absurd hs (not_holds_of_free (hfree s))⟩
    rw [clock, hrecency, htrack]
    rfl
  obtain ⟨replies, m, M, touched, hrun, htouched, h, hstamps⟩ := h₀.run_stamps hstamps₀ ops
  rw [List.nil_append] at hstamps
  exact ⟨m₀, replies, m, touched, hnew, hrun, htouched,
    hstamps.recent h.sound (h₀.run_swept (ofConfig_swept hnew) hrun).1⟩

/-- Two keys are bound and the first of them is read again. -/
theorem run_recent_read_again :
    ({ key := .int32, value := some .int32, trackAccess := true } : Config).validate = .ok () ∧
      ∃ (m₀ : Map String String) (replies : _) (m : _),
        ofConfig { key := .int32, value := some .int32, trackAccess := true } (fun _ => 0) =
            .ok m₀ ∧
          m₀.run [.put (.int32 1) (.int32 5) .addressable, .put (.int32 2) (.int32 6) .addressable,
            .get (.int32 1)] = .ok (replies, m) ∧
          m₀.touches [.put (.int32 1) (.int32 5) .addressable,
            .put (.int32 2) (.int32 6) .addressable, .get (.int32 1)] =
              .ok [.int32 1, .int32 2, .int32 1] ∧
          m.Recent [.int32 1, .int32 2, .int32 1] := by
  have hvalid : ({ key := .int32, value := some .int32, trackAccess := true } : Config).validate =
      .ok () := by decide
  obtain ⟨m₀, hnew, htouches⟩ : ∃ m₀ : Map String String,
      ofConfig { key := .int32, value := some .int32, trackAccess := true } (fun _ => 0) =
          .ok m₀ ∧
        m₀.touches [.put (.int32 1) (.int32 5) .addressable,
          .put (.int32 2) (.int32 6) .addressable, .get (.int32 1)] =
            .ok [.int32 1, .int32 2, .int32 1] := ⟨_, rfl, rfl⟩
  obtain ⟨m₁, replies, m, touched, hnew₁, hrun, htouches₁, hrecent⟩ :=
    run_recent (ν := String) hvalid rfl (fun _ : String => 0)
      [.put (.int32 1) (.int32 5) .addressable, .put (.int32 2) (.int32 6) .addressable,
        .get (.int32 1)]
  obtain rfl := Except.ok.inj (hnew.symm.trans hnew₁)
  obtain rfl := Except.ok.inj (htouches.symm.trans htouches₁)
  exact ⟨hvalid, m₀, replies, m, hnew, hrun, htouches, hrecent⟩

end TableIndex.Map
