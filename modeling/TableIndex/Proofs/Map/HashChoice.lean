import TableIndex.Proofs.Map.Twins
import TableIndex.Proofs.Map.View

/-!
# The choice of a hash function

Two new maps of one configuration get the same replies to the same operations and show the same
afterwards, whatever their hash functions are and however badly one of them spreads the keys.
-/

namespace TableIndex.Map

variable {κ ν : Type} {m m' : Map κ ν} {resizes ticks : Nat}

/-- A view that shows more resizes, and stamps of a clock that is ahead. -/
def View.later (resizes ticks : Nat) (v : View κ ν) : View κ ν :=
  { v with
    resizes := v.resizes + resizes
    stamps := v.stamps.map (List.map (Recency.laterStamp ticks)) }

private theorem View.later_zero (v : View κ ν) : v.later 0 0 = v := by
  simp [later, Recency.laterStamp_zero]

namespace Twin

private theorem leastStamped_eq (h : m.Twin resizes ticks m') :
    m'.leastStamped = m.leastStamped := by
  unfold leastStamped
  rw [h.recency, show m'.chains.inUse = m.chains.inUse from h.chains.slots.inUse]
  cases m.recency with
  | none => rfl
  | some r =>
      have hlater : (m.chains.inUse.map fun s => (s, (r.later ticks).mark s)) =
          (m.chains.inUse.map fun s => (s, r.mark s)).map
            (Prod.map id (Recency.laterStamp ticks)) := by
        simp [Recency.mark_later, Function.comp_def]
      rw [Option.map_some, Option.bind_some, Option.bind_some, hlater,
        oldest_map fun _ _ => Recency.laterStamp_lt ticks]

theorem view_later (h : m.Twin resizes ticks m') (hm : m.Sound) (hm' : m'.Sound) {v : View κ ν}
    (hview : m.view = .ok v) : m'.view = .ok (v.later resizes ticks) := by
  have hslots : m'.chains.inUse = m.chains.inUse := h.chains.slots.inUse
  have hentry : m'.entryAt = m.entryAt := by
    funext s
    rw [entryAt, entryAt, h.entries]
  have hlist : m'.toList = m.toList := by rw [toList, toList, hslots, hentry]
  have hkeys : m'.keys = m.keys := by rw [Map.keys, Map.keys, hslots, h.entries]
  have hvalues : m'.values = m.values := by rw [Map.values, Map.values, hslots, h.entries]
  have hleast : m'.leastRecent = m.leastRecent := by
    rw [hm.leastRecent_eq, hm'.leastRecent_eq, h.leastStamped_eq, h.entries]
  have hverify : m'.verify = m.verify := by rw [verify_eq hm, verify_eq hm']
  have hsize : m'.chains.size = m.chains.size := h.chains.slots.size
  have hstamps : (m'.recency.map fun r => r.stamps.toList) =
      (m.recency.map fun r => r.stamps.toList).map (List.map (Recency.laterStamp ticks)) := by
    rw [h.recency, Option.map_map, Option.map_map]
    exact Option.map_congr fun r _ => Array.toList_map
  unfold view at hview ⊢
  rw [hlist, hkeys, hvalues, hleast, hverify, hstamps]
  obtain ⟨entries, hentries, hview⟩ := bind_eq_ok.mp hview
  obtain ⟨keys, hkeys, hview⟩ := bind_eq_ok.mp hview
  obtain ⟨values, hvalues, hview⟩ := bind_eq_ok.mp hview
  obtain ⟨leastRecent, hleast, hview⟩ := bind_eq_ok.mp hview
  obtain ⟨verified, hverified, hview⟩ := bind_eq_ok.mp hview
  cases hview
  simp only [hentries, hkeys, hvalues, hleast, hverified, ok_bind, pure_eq_ok, View.later, size,
    Map.capacity, Map.resizes, Chains.load, hsize, h.chains.capacity, h.chains.resizes]

private theorem view_eq (h : m.Twin 0 0 m') (hm : m.Sound) (hm' : m'.Sound) : m'.view = m.view := by
  obtain ⟨v, hview, -⟩ := hm.view_eq
  rw [h.view_later hm hm' hview, hview, View.later_zero]

end Twin

private theorem ofConfig_twin {config : Config} {hasher hasher' : κ → UInt64}
    (hm : ofConfig config hasher = .ok m) (hm' : ofConfig config hasher' = .ok m') :
    m.Twin 0 0 m' := by
  obtain ⟨hconfig, hchains, hentries, hrecency⟩ := ofConfig_parts hm
  obtain ⟨hconfig', hchains', hentries', hrecency'⟩ := ofConfig_parts hm'
  exact ⟨by rw [hconfig, hconfig'], by rw [hentries, hentries'],
    by rw [hrecency, hrecency', Recency.later_zero, Option.map_id_fun, id],
    by rw [hchains, hchains']; exact .refl _⟩

variable [DecidableEq κ]

namespace Twin

theorem stamp_later (h : m.Twin resizes ticks m') (hm : m.Sound) (hm' : m'.Sound)
    {key : Datum κ} {stamp : Option Nat} (hstamp : m.stamp key = .ok stamp) :
    m'.stamp key = .ok (stamp.map (Recency.laterStamp ticks)) := by
  rcases h.find_cases hm hm' key with ⟨s, -, -, hs⟩ | ⟨hfind, hfind'⟩
  · obtain rfl := Except.ok.inj ((hm.stamp_of_holds hs).symm.trans hstamp)
    rw [hm'.stamp_of_holds (h.holds_iff.mpr hs), mark, mark, h.recency, Option.map_map,
      Option.map_map]
    exact congrArg _ (Option.map_congr fun r _ => r.mark_later ticks s)
  · obtain rfl := Except.ok.inj ((stamp_of_absent hfind).symm.trans hstamp)
    exact stamp_of_absent hfind'

private theorem stamp_eq (h : m.Twin 0 0 m') (hm : m.Sound) (hm' : m'.Sound) (key : Datum κ) :
    m'.stamp key = m.stamp key := by
  obtain ⟨stamp, hstamp⟩ := hm.stamp_of_key key
  rw [h.stamp_later hm hm' hstamp, hstamp]
  simp [Recency.laterStamp_zero]

theorem run (h : m.Twin resizes ticks m') {config config' : Config} {M M' : Bindings κ ν}
    (hm : m.Represents config M) (hm' : m'.Represents config' M') (ops : List (Op κ ν)) :
    ∃ replies n n', m.run ops = .ok (replies, n) ∧ m'.run ops = .ok (replies, n') ∧
      n.Twin resizes ticks n' ∧ n.Sound ∧ n'.Sound := by
  induction ops generalizing m m' M M' with
  | nil => exact ⟨[], m, m', rfl, rfl, h, hm.sound, hm'.sound⟩
  | cons op ops ih =>
      obtain ⟨reply, m₁, M₁, hrun, -, hm₁⟩ := hm.apply_answers op
      obtain ⟨reply', m₁', M₁', hrun', -, hm₁'⟩ := hm'.apply_answers op
      have hstep := h.apply hm.sound hm'.sound op
      rw [hrun, hrun'] at hstep
      cases hstep with
      | ok hsame =>
          obtain ⟨hreply, h₁⟩ := hsame
          obtain rfl : reply' = reply := hreply
          obtain ⟨replies, n, n', hrest, hrest', hn⟩ := ih h₁ hm₁ hm₁'
          exact ⟨reply' :: replies, n, n', by simp [Map.run, hrun, hrest],
            by simp [Map.run, hrun', hrest'], hn⟩

end Twin

/-- Whatever is done to two new maps of one configuration, their hash functions make no difference:
both give the same replies, and afterwards they show the same, with no damage found. -/
theorem hasher_irrelevant {config : Config} (h : config.validate = .ok ())
    (hasher hasher' : κ → UInt64) :
    ∃ m₀ m₀' : Map κ ν, ofConfig config hasher = .ok m₀ ∧ ofConfig config hasher' = .ok m₀' ∧
      ∀ ops : List (Op κ ν), ∃ replies m m' view,
        m₀.run ops = .ok (replies, m) ∧ m₀'.run ops = .ok (replies, m') ∧
          m.view = .ok view ∧ m'.view = .ok view ∧ view.verified = .ok () ∧
          ∀ key, ∃ stamp, m.stamp key = .ok stamp ∧ m'.stamp key = .ok stamp := by
  obtain ⟨m₀, hnew, hm₀⟩ := ofConfig_represents (ν := ν) h hasher
  obtain ⟨m₀', hnew', hm₀'⟩ := ofConfig_represents (ν := ν) h hasher'
  have htwin := ofConfig_twin hnew hnew'
  refine ⟨m₀, m₀', hnew, hnew', fun ops => ?_⟩
  obtain ⟨replies, m, m', hrun, hrun', hsame, hm, hm'⟩ := htwin.run hm₀ hm₀' ops
  obtain ⟨view, hview, hverified⟩ := hm.view_eq
  refine ⟨replies, m, m', view, hrun, hrun', hview, (hsame.view_eq hm hm').trans hview, hverified,
    fun key => ?_⟩
  obtain ⟨stamp, hstamp⟩ := hm.stamp_of_key key
  exact ⟨stamp, hstamp, (hsame.stamp_eq hm hm' key).trans hstamp⟩

theorem hasher_irrelevant_constant :
    ({ trackAccess := true } : Config).validate = .ok () ∧
      ∃ m₀ m₀' : Map String String,
        ofConfig { trackAccess := true } (fun _ => 0) = .ok m₀ ∧
          ofConfig { trackAccess := true } (fun key => UInt64.ofNat key.length) = .ok m₀' ∧
            ∀ ops : List (Op String String), ∃ replies m m' view,
              m₀.run ops = .ok (replies, m) ∧ m₀'.run ops = .ok (replies, m') ∧
                m.view = .ok view ∧ m'.view = .ok view ∧ view.verified = .ok () ∧
                ∀ key, ∃ stamp, m.stamp key = .ok stamp ∧ m'.stamp key = .ok stamp :=
  ⟨by decide, hasher_irrelevant (by decide) _ _⟩

end TableIndex.Map
