import TableIndex.Proofs.Tree.Rebalance

/-!
# Retraces

After one subtree has changed its height by one, a retrace corrects the balances on the path above
it. It stops where the height no longer changes, and by then the whole tree is balanced, with all
balances exact and the nodes in the order they had.
-/

namespace TableIndex.Tree

variable {α : Type}

/-- The tree `t'` holds the balanced shape `sh'`, with the slots of `t` and the order of `sh`. -/
structure Settles (t : Tree α) (sh : Shape α) (t' : Tree α) (sh' : Shape α) : Prop where
  split : t'.Split .top sh'
  listed : sh'.listed .right = sh.listed .right
  balanced : sh'.Balanced
  same : Arena.SameSlots t.nodes t'.nodes

private theorem Split.settles {t : Tree α} {path : Path α} {sh : Shape α} (h : t.Split path sh)
    (hc : path.Counts sh.height) (hb : sh.Balanced) (hp : path.Balanced sh.height) :
    t.Settles (path.plug sh) t (path.plug sh) where
  split :=
    have hstored := (Path.stored_plug t hc).mpr ⟨h.stored, h.above⟩
    ⟨hstored.1, hstored.2, by
      simpa [Path.slots] using (Path.slots_plug path sh).nodup_iff.mpr h.nodup⟩
  listed := rfl
  balanced := (Path.balanced_plug path sh).mpr ⟨hb, hp⟩
  same := Arena.SameSlots.refl _

private theorem Settles.of_eq {t t₁ t' : Tree α} {path : Path α} {sh sh₁ sh' : Shape α}
    (h : t₁.Settles (path.plug sh₁) t' sh') (hlist : sh₁.listed .right = sh.listed .right)
    (hsame : Arena.SameSlots t.nodes t₁.nodes) : t.Settles (path.plug sh) t' sh' where
  split := h.split
  listed := by rw [h.listed, Path.listed_plug, Path.listed_plug, hlist]
  balanced := h.balanced
  same := hsame.trans h.same

/-- A settled tree holds its shape, if its live slots were those of the shape to settle. -/
theorem Settles.hasShape {t t' : Tree α} {sh sh' : Shape α} (h : t.Settles sh t' sh')
    (hlive : ∀ s, t.nodes.contains (some s) = true ↔ s ∈ sh.slots) (hsound : t.nodes.Sound) :
    t'.HasShape sh' where
  root_eq := h.split.above
  stored := h.split.stored
  nodup := by simpa [Path.slots] using h.split.nodup
  live_iff := by
    intro s
    rw [h.same.contains, hlive, Shape.slots_perm .right h.listed]
  balanced := h.balanced
  sound := hsound.congr h.same

theorem Split.node_above {t : Tree α} {side : Side} {s r : Slot} {x : α} {tilt : Int}
    {sibling : Shape α} {up : Path α} {sh : Shape α} {l : Link}
    (h : t.Split (.step side s x tilt sibling up) sh) (hl : sh.link = l) (hr : l = some r) :
    t.nodeAt? s = some (Node.facing side x l sibling.link up.link tilt) ∧
      (Node.facing side x l sibling.link up.link tilt).sideOf l = side := by
  subst hl
  refine ⟨h.above.1, Node.facing_sideOf side x up.link tilt ?_⟩
  intro he
  have hsib : r ∈ sibling.slots := Shape.link_mem (he.symm.trans hr)
  have := h.not_mem_path (Shape.link_mem hr)
  simp [Path.slots, hsib] at this

private theorem Split.root {t : Tree α} {path : Path α} {sh : Shape α} {r : Slot}
    (h : t.Split path sh) (hr : sh.link = some r) :
    ∃ n, t.node (some r) = .ok n ∧ n.parent = path.link ∧ n.balance = sh.tilt :=
  exists_root_of_stored h.stored hr

private theorem Split.setTilt {t : Tree α} {side : Side} {s : Slot} {x : α} {tilt : Int}
    {sibling : Shape α} {up : Path α} {sh : Shape α}
    (h : t.Split (.step side s x tilt sibling up) sh) (b : Int) :
    ∃ t', t.edit (some s) (fun n => { n with balance := side.weight * b }) = .ok t' ∧
      t'.Split (.step side s x b sibling up) sh ∧ Arena.SameSlots t.nodes t'.nodes := by
  obtain ⟨hs, hsib, hup⟩ := h.above
  have hnd := h.nodup_path
  simp only [Path.slots, List.nodup_cons, List.mem_append, not_or] at hnd
  have hsh : s ∉ sh.slots := by
    intro hm
    exact h.not_mem_path hm (by simp [Path.slots])
  refine ⟨t.put s (Node.facing side x sh.link sibling.link up.link b), ?_, ⟨?_, ?_, h.nodup⟩,
    sameSlots_put hs _⟩
  · rw [edit_of_nodeAt? _ hs, Node.facing_setBalance]
  · exact h.stored.put hsh _
  · exact ⟨nodeAt?_put_self hs _, hsib.put hnd.1.1 _, hup.put hnd.1.2 _⟩

/-- Above a subtree that is one level taller than the path counts, and that is a single node or not
even at its root. -/
theorem retraceGrowth_settles {path : Path α} {t : Tree α} {sh : Shape α} {h fuel : Nat}
    (hsp : t.Split path sh) (hb : sh.Balanced) (hheight : sh.height = h + 1)
    (hodd : h = 0 ∨ sh.tilt ≠ 0) (hc : path.Counts h) (hp : path.Balanced h)
    (hfuel : path.length < fuel) :
    ∃ t' sh', t.retraceGrowth fuel sh.link = .ok t' ∧ t.Settles (path.plug sh) t' sh' := by
  induction path generalizing t sh h fuel with
  | top =>
      obtain ⟨fuel, rfl⟩ : ∃ f, fuel = f + 1 := ⟨fuel - 1, by simp [Path.length] at hfuel; omega⟩
      obtain ⟨r, hr⟩ := Shape.exists_link (by omega : 0 < sh.height)
      obtain ⟨n, hn, hparent, -⟩ := hsp.root hr
      refine ⟨t, _, ?_, hsp.settles trivial hb trivial⟩
      rw [hr, retraceGrowth, hn, ok_bind, hparent]
      rfl
  | step side s x tilt sibling up ih =>
      obtain ⟨fuel, rfl⟩ : ∃ f, fuel = f + 1 := ⟨fuel - 1, by omega⟩
      obtain ⟨rfl, hcup⟩ := hc
      obtain ⟨hnear, hsibb, hpup⟩ := hp
      obtain ⟨r, hr⟩ := Shape.exists_link (by omega : 0 < sh.height)
      obtain ⟨n, hn, hparent, -⟩ := hsp.root hr
      obtain ⟨hs, hside⟩ := hsp.node_above hr rfl
      obtain ⟨t₁, hedit, hsp₁, hsame₁⟩ := hsp.setTilt (sh.height - sibling.height)
      have hsp₁' := Split.step_iff.mp hsp₁
      have hbalance : (Node.facing side x (some r) sibling.link up.link
          (h - sibling.height)).balance + side.weight =
          side.weight * (sh.height - sibling.height) := by
        rw [Node.facing_balance, hheight]
        push_cast
        ring
      simp only [retraceGrowth, hr, hn, ok_bind, hparent, Path.link_step, node_of_nodeAt? hs, hside,
        hbalance, hedit, Side.weight_mul_eq_zero, Side.weight_mul_eq_one]
      by_cases heven : (sh.height : Int) - sibling.height = 0
      · rw [if_pos heven]
        have hj : (Shape.join side sh s x sibling).height = 1 + max h sibling.height := by
          rw [Shape.height_join]
          omega
        have hsettled := hsp₁'.settles (hj ▸ hcup)
          ((Shape.balanced_join ..).mpr ⟨by omega, hb, hsibb⟩) (hj ▸ hpup)
        exact ⟨t₁, _, rfl, hsettled.of_eq rfl hsame₁⟩
      · rw [if_neg heven]
        by_cases hgrown : (sh.height : Int) - sibling.height = 1 ∨
            (sh.height : Int) - sibling.height = -1
        · rw [if_pos hgrown]
          have hj : (Shape.join side sh s x sibling).height = 1 + max h sibling.height + 1 := by
            rw [Shape.height_join]
            omega
          obtain ⟨t', sh', hrun, hsettled⟩ := ih hsp₁'
            ((Shape.balanced_join ..).mpr ⟨by omega, hb, hsibb⟩) hj
            (.inr (by rw [ne_eq, Shape.tilt_join_eq_zero]; omega)) hcup hpup
            (show up.length < fuel by simp only [Path.length] at hfuel; omega)
          rw [Shape.link_join] at hrun
          exact ⟨t', sh', hrun, hsettled.of_eq rfl hsame₁⟩
        · rw [if_neg hgrown]
          obtain ⟨t₂, sh₂, hrun, hsp₂, hrestores⟩ := rebalance_split hsp₁' hb hsibb (by omega)
          have hj : sh₂.height = 1 + max h sibling.height := by
            have hh₂ := hrestores.height
            rw [if_neg (hodd.resolve_left (by omega)), Shape.height_join] at hh₂
            omega
          have hsettled := hsp₂.settles (hj ▸ hcup) hrestores.balanced (hj ▸ hpup)
          refine ⟨t₂, _, ?_, hsettled.of_eq hrestores.listed (hsame₁.trans hrestores.rehung.same)⟩
          rw [hrun]
          rfl

/-- A node that has become even stays, and one whose other subtree is taller by two is set right. A
level is lost exactly when the new root is even. -/
private theorem lowered_split {t : Tree α} {path : Path α} {side : Side} {s : Slot} {x : α}
    {sh sibling : Shape α} (hsp : t.Split path (.join side sh s x sibling)) (hb : sh.Balanced)
    (hsibb : sibling.Balanced)
    (hsteady : sibling.height = sh.height ∨ sibling.height = sh.height + 2) :
    ∃ t' sh' r, sh'.link = some r ∧
      (∀ k : Link × Tree α → Checked (Tree α),
        (if (sh.height : Int) - sibling.height = 0 then pure (some s, t) >>= k
          else t.rebalance (some s) >>= k) = k (some r, t')) ∧
      t'.Split path sh' ∧
      sh'.listed .right = (Shape.join side sh s x sibling).listed .right ∧ sh'.Balanced ∧
      Arena.SameSlots t.nodes t'.nodes ∧
      (sh'.tilt ≠ 0 → sh'.height = 1 + max (sh.height + 1) sibling.height) ∧
      (sh'.tilt = 0 → sh'.height + 1 = 1 + max (sh.height + 1) sibling.height) := by
  rcases hsteady with heq | htwo
  · refine ⟨t, .join side sh s x sibling, s, Shape.link_join .., ?_, hsp, rfl,
      (Shape.balanced_join ..).mpr ⟨by omega, hb, hsibb⟩, Arena.SameSlots.refl _, ?_, ?_⟩
    · intro k
      rw [if_pos (by omega)]
      rfl
    · intro hodd
      exact absurd (Shape.tilt_join_eq_zero.mpr heq.symm) hodd
    · intro _
      rw [Shape.height_join]
      omega
  · rw [← Shape.join_other] at hsp
    obtain ⟨t', sh', hrun, hsp', hrestores⟩ := rebalance_split hsp hsibb hb htwo
    have hheight := hrestores.height
    have hlist := hrestores.listed
    rw [Shape.join_other, Shape.height_join] at hheight
    rw [Shape.join_other] at hlist
    have hpos : 0 < sh'.height := by
      split at hheight <;> omega
    obtain ⟨r, hr⟩ := Shape.exists_link hpos
    refine ⟨t', sh', r, hr, ?_, hsp', hlist, hrestores.balanced, hrestores.rehung.same, ?_, ?_⟩
    · intro k
      rw [if_neg (by omega), hrun, hr, ok_bind]
    · intro hne
      rw [if_pos (hrestores.tilt.mp hne)] at hheight
      omega
    · intro hzero
      rw [if_neg fun h => hrestores.tilt.mpr h hzero] at hheight
      omega

theorem retraceShrinkage_settles {path : Path α} {t : Tree α} {sh : Shape α} {fuel : Nat}
    (hsp : t.Split path sh) (hb : sh.Balanced) (hc : path.Counts (sh.height + 1))
    (hp : path.Balanced (sh.height + 1)) (hfuel : path.length ≤ fuel) :
    ∃ t' sh', t.retraceShrinkage fuel path.link path.side = .ok t' ∧
      t.Settles (path.plug sh) t' sh' := by
  induction path generalizing t sh fuel with
  | top =>
      refine ⟨t, _, ?_, hsp.settles trivial hb trivial⟩
      rw [Path.link_top, retraceShrinkage]
  | step side s x tilt sibling up ih =>
      obtain ⟨fuel, rfl⟩ : ∃ f, fuel = f + 1 := ⟨fuel - 1, by simp [Path.length] at hfuel; omega⟩
      obtain ⟨rfl, hcup⟩ := hc
      obtain ⟨hnear, hsibb, hpup⟩ := hp
      have hs := hsp.above.1
      obtain ⟨t₁, hedit, hsp₁, hsame₁⟩ := hsp.setTilt (sh.height - sibling.height)
      have hsp₁' := Split.step_iff.mp hsp₁
      have hbalance : (Node.facing side x sh.link sibling.link up.link
          (((sh.height + 1 : Nat) : Int) - sibling.height)).balance - side.weight =
          side.weight * (sh.height - sibling.height) := by
        rw [Node.facing_balance]
        push_cast
        ring
      simp only [Path.link_step, Path.side, retraceShrinkage, node_of_nodeAt? hs, ok_bind,
        hbalance, hedit, Side.weight_mul_eq_zero, Side.weight_mul_eq_one]
      by_cases hsteady : (sh.height : Int) - sibling.height = 1 ∨
          (sh.height : Int) - sibling.height = -1
      · -- the other subtree is the taller one now, and the height is as before
        rw [if_pos hsteady]
        have hj : (Shape.join side sh s x sibling).height =
            1 + max (sh.height + 1) sibling.height := by
          rw [Shape.height_join]
          omega
        have hsettled := hsp₁'.settles (hj ▸ hcup)
          ((Shape.balanced_join ..).mpr ⟨by omega, hb, hsibb⟩) (hj ▸ hpup)
        exact ⟨t₁, _, rfl, hsettled.of_eq rfl hsame₁⟩
      · rw [if_neg hsteady]
        obtain ⟨t₂, sh₂, r, hr, hrun, hsp₂, hlist₂, hb₂, hsame₂, hsteady₂, hlow₂⟩ :=
          lowered_split hsp₁' hb hsibb (by omega)
        obtain ⟨n, hn, hparent, htilt⟩ := hsp₂.root hr
        have hof := fun {t' sh'} (h : t₂.Settles (up.plug sh₂) t' sh') =>
          (h.of_eq hlist₂ (hsame₁.trans hsame₂) :
            t.Settles (up.plug (.join side sh s x sibling)) _ _)
        by_cases hodd : sh₂.tilt = 0
        · have hh₂ := hlow₂ hodd
          cases up with
          | top =>
              refine ⟨t₂, _, (hrun _).trans ?_, hof (hsp₂.settles trivial hb₂ trivial)⟩
              simp only [hn, ok_bind, htilt, hodd, hparent]
              rfl
          | step d u y tilt sibling' up' =>
              obtain ⟨hu, hd⟩ := hsp₂.node_above hr rfl
              obtain ⟨t', sh', hrun', hsettled⟩ := ih hsp₂ hb₂ (hh₂ ▸ hcup)
                (hh₂ ▸ hpup) (show _ ≤ fuel by simp only [Path.length] at hfuel ⊢; omega)
              refine ⟨t', sh', (hrun _).trans ?_, hof hsettled⟩
              simp only [hn, ok_bind, htilt, hodd, hparent, Path.link_step, node_of_nodeAt? hu, hd]
              exact hrun'
        · have hh₂ := hsteady₂ hodd
          refine ⟨t₂, _, (hrun _).trans ?_, hof (hsp₂.settles (hh₂ ▸ hcup) hb₂ (hh₂ ▸ hpup))⟩
          simp only [hn, ok_bind, htilt]
          exact if_pos hodd

end TableIndex.Tree
