import TableIndex.Proofs.Tree.Rotation

/-!
# Rebalancing one node

A node that leans by two, above subtrees that are balanced, is set right by one rotation or by two.
The nodes keep their order and the new subtree hangs where the old one did. Whoever retraces a
removal learns from the balance of its root alone whether the subtree has lost a level.
-/

namespace TableIndex

/-- The taller one of two subtrees. -/
def Shape.taller {α : Type} (l r : Shape α) : Shape α := if r.height ≤ l.height then l else r

namespace Tree

variable {α : Type}

/-- A rebalancing with the numbers that its rotations form. -/
def rebalanceForming (t : Tree α) (l : Link) : Checked (List Int × Link × Tree α) := do
  let node ← t.node l
  match heavySide node.balance with
  | none => return ([], l, t)
  | some side =>
      let child := node.child side
      let (first, t) ← if side.weight * (← t.node child).balance < 0
        then (fun out => (out.1, out.2.2)) <$> t.rotateForming side child
        else pure ([], t)
      let (second, top, t) ← t.rotateForming side.other l
      return (first ++ second, top, t)

private theorem rebalance_eq (t : Tree α) (l : Link) :
    t.rebalance l = Prod.snd <$> t.rebalanceForming l := by
  simp only [rebalance, rebalanceForming, map_bind]
  refine bind_congr fun node => ?_
  cases heavySide node.balance with
  | none => rfl
  | some side =>
      simp only [map_bind]
      refine bind_congr fun child => ?_
      by_cases hinward : side.weight * child.balance < 0
      · simp only [if_pos hinward, rotate_eq, bind_map_left, map_bind, bind_pure_comp,
          Functor.map_map]
      · simp only [if_neg hinward, rotate_eq, pure_bind, bind_pure_comp, Functor.map_map]

/-- The subtree `sh` at the place, whose taller child was `taller`, has become `sh'` in `t'`: it is
balanced, with the same nodes in the same order, and has lost a level unless `taller` was even; just
then its root is not even. -/
structure Restores (t : Tree α) (place : Place) (sh taller : Shape α) (t' : Tree α)
    (sh' : Shape α) : Prop where
  stored : sh'.Stored t' place.link
  rehung : t.Rehung place sh.slots sh'.link t'
  listed : sh'.listed .right = sh.listed .right
  balanced : sh'.Balanced
  height : sh'.height + (if taller.tilt = 0 then 0 else 1) = sh.height
  tilt : sh'.tilt ≠ 0 ↔ taller.tilt = 0

variable {t : Tree α} {place : Place} {side : Side} {p q : Shape α} {s : Slot} {x : α}

private theorem heavySide_weight (side : Side) : heavySide (side.weight * 2) = some side := by
  cases side <;> rfl

/-- All numbers that a rotation forms are small if the balances were, and if the upper node does not
lean by two the way that the lower one leans by one. -/
private theorem formed_small {side : Side} {lower upper : Int}
    (h : (lower = -2 ∧ (upper = -2 ∨ upper = -1 ∨ upper = 0)) ∨
      (lower = -1 ∧ (upper = -1 ∨ upper = 0 ∨ upper = 1))) :
    ∀ b ∈ formed side lower upper, -2 ≤ b ∧ b ≤ 2 := by
  intro b hb
  rcases h with ⟨rfl, rfl | rfl | rfl⟩ | ⟨rfl, rfl | rfl | rfl⟩ <;> cases side <;>
    revert b <;> decide

variable {outer inner b c : Shape α} {z u : Slot} {y w : α}

private theorem restores_single
    (h : t.Holds place (.join side (.join side outer z y inner) s x q))
    (hp : (Shape.join side outer z y inner).Balanced) (hq : q.Balanced)
    (hheight : 1 + max outer.height inner.height = q.height + 2)
    (hout : inner.height ≤ outer.height) :
    ∃ t' sh' values, t.rotateForming side.other (some s) = .ok (values, sh'.link, t') ∧
      t.Restores place (.join side (.join side outer z y inner) s x q)
        (.join side outer z y inner) t' sh' ∧ ∀ v ∈ values, -2 ≤ v ∧ v ≤ 2 := by
  rw [Shape.balanced_join] at hp
  rw [← Shape.join_other side q, ← Shape.join_other side inner] at h
  obtain ⟨t', hrun, hstored, hrehung⟩ := rotateForming_holds h
  rw [Shape.join_other, Shape.join_other] at hrehung
  rw [← Shape.link_join side.other (.join side.other q s x inner) z y outer] at hrun hrehung
  have hnear := hp.1
  refine ⟨t', _, _, hrun, ⟨hstored, hrehung, Shape.listed_congr side ?_ .right, ?_, ?_, ?_⟩, ?_⟩
  · simp [Shape.join_other, Shape.listed_join]
  · simp only [Shape.join_other, Shape.balanced_join, Shape.height_join]
    exact ⟨by omega, hp.2.1, by omega, hp.2.2, hq⟩
  · simp only [Shape.tilt_join_eq_zero, Shape.join_other, Shape.height_join]
    split <;> omega
  · simp only [ne_eq, Shape.tilt_join_eq_zero, Shape.join_other, Shape.height_join]
    omega
  · exact formed_small (.inl ⟨by omega, by omega⟩)

private theorem restores_double
    (h : t.Holds place (.join side (.join side outer z y (.join side b u w c)) s x q))
    (hp : (Shape.join side outer z y (.join side b u w c)).Balanced) (hq : q.Balanced)
    (hheight : 1 + max outer.height (1 + max b.height c.height) = q.height + 2)
    (hinward : outer.height < 1 + max b.height c.height) :
    ∃ t₁ first t' sh' second, t.rotateForming side (some z) = .ok (first, some u, t₁) ∧
      t₁.rotateForming side.other (some s) = .ok (second, sh'.link, t') ∧
      t.Restores place (.join side (.join side outer z y (.join side b u w c)) s x q)
        (.join side outer z y (.join side b u w c)) t' sh' ∧
      ∀ v ∈ first ++ second, -2 ≤ v ∧ v ≤ 2 := by
  simp only [Shape.balanced_join, Shape.height_join] at hp
  obtain ⟨hnear, houter, hinner, hb, hc⟩ := hp
  obtain ⟨t₁, hrun₁, hstored₁, hrehung₁⟩ :=
    rotateForming_holds (h.child (Shape.link_join side outer z y _))
  -- the first rotation changes neither the slots nor the height of the child
  have hlisted₁ := Shape.listed_rotated side outer b c z u y w
  have hlisted := Shape.listed_join_congr hlisted₁ s x q
  have hheight₁ : (Shape.join side (.join side outer z y b) u w c).height =
      (Shape.join side outer z y (.join side b u w c)).height := by
    simp only [Shape.height_join]
    omega
  rw [← Shape.link_join side (.join side outer z y b) u w c] at hrehung₁
  have h₁ := h.replace hstored₁ hrehung₁ (Shape.slots_perm side hlisted₁) hheight₁
  rw [← Shape.join_other side q, ← Shape.join_other side c] at h₁
  obtain ⟨t', hrun', hstored', hrehung'⟩ := rotateForming_holds h₁
  rw [Shape.join_other, Shape.join_other, Shape.slots_perm side hlisted] at hrehung'
  rw [← Shape.link_join side.other (.join side.other q s x c) u w (.join side outer z y b)]
    at hrun' hrehung'
  have hslots := Shape.slots_join side (.join side outer z y (.join side b u w c)) s x q
  have hodd : (Shape.join side outer z y (.join side b u w c)).tilt ≠ 0 := by
    rw [ne_eq, Shape.tilt_join_eq_zero, Shape.height_join]
    omega
  refine ⟨t₁, _, t', _, _, hrun₁, hrun', ⟨hstored', ?_, Shape.listed_congr side ?_ .right, ?_, ?_,
    ?_⟩, ?_⟩
  · refine hrehung₁.trans_below hrehung' (hslots.mem_iff.mpr (by simp)) fun v hv => ?_
    exact hslots.mem_iff.mpr (by simp [hv])
  · rw [← hlisted]
    simp [Shape.join_other, Shape.listed_join]
  · simp only [Shape.join_other, Shape.balanced_join, Shape.height_join]
    exact ⟨by omega, ⟨by omega, houter, hb⟩, by omega, hc, hq⟩
  · rw [if_neg hodd]
    simp only [Shape.join_other, Shape.height_join]
    omega
  · refine iff_of_false (not_not.mpr ?_) hodd
    rw [Shape.tilt_join_eq_zero]
    simp only [Shape.join_other, Shape.height_join]
    omega
  · intro v hv
    rcases List.mem_append.mp hv with hfirst | hsecond
    · exact formed_small (.inr ⟨by omega, by omega⟩) v hfirst
    · refine formed_small (.inl ?_) v hsecond
      simp only [Shape.height_join]
      omega

private theorem rebalanceForming_restores (h : t.Holds place (.join side p s x q)) (hp : p.Balanced)
    (hq : q.Balanced) (hheight : p.height = q.height + 2) :
    ∃ t' sh' values, t.rebalanceForming (some s) = .ok (values, sh'.link, t') ∧
      t.Restores place (.join side p s x q) p t' sh' ∧ ∀ v ∈ values, -2 ≤ v ∧ v ≤ 2 := by
  obtain ⟨n, hn, -, hchild, -, -, hbal⟩ := root_of_stored h.stored
  have htilt : n.balance = side.weight * 2 := by
    rw [hbal, Shape.tilt_join, hheight]
    congr 1
    push_cast
    ring
  obtain rfl | ⟨outer, z, y, inner, rfl⟩ := Shape.eq_nil_or_join side p
  · simp at hheight
  obtain ⟨m, hm, -, -, -, -, hmbal⟩ :=
    root_of_stored (h.child (Shape.link_join side outer z y inner)).stored
  have hmtilt : side.weight * m.balance = outer.height - inner.height := by
    rw [hmbal, Shape.tilt_join, weight_cancel]
  rw [Shape.link_join] at hchild
  rw [Shape.height_join] at hheight
  simp only [rebalanceForming, hn, ok_bind, htilt, heavySide_weight, hchild, hm, hmtilt]
  by_cases hinward : (outer.height : Int) - inner.height < 0
  · obtain rfl | ⟨b, u, w, c, rfl⟩ := Shape.eq_nil_or_join side inner
    · rw [Shape.height_nil] at hinward
      omega
    rw [Shape.height_join] at hheight hinward
    obtain ⟨t₁, first, t', sh', second, hfirst, hsecond, hrestores, hsmall⟩ :=
      restores_double h hp hq hheight (by omega)
    refine ⟨t', sh', first ++ second, ?_, hrestores, hsmall⟩
    rw [Shape.height_join, if_pos hinward]
    simp only [hfirst, bind_map_left, ok_bind, hsecond, pure_eq_ok]
  · obtain ⟨t', sh', values, hrun, hrestores, hsmall⟩ :=
      restores_single h hp hq hheight (by omega)
    refine ⟨t', sh', values, ?_, hrestores, hsmall⟩
    rw [if_neg hinward]
    simp only [pure_eq_ok, ok_bind, hrun, List.nil_append]

theorem rebalance_split {path : Path α} (hsp : t.Split path (.join side p s x q)) (hp : p.Balanced)
    (hq : q.Balanced) (hheight : p.height = q.height + 2) :
    ∃ t' sh', t.rebalance (some s) = .ok (sh'.link, t') ∧ t'.Split path sh' ∧
      t.Restores path.place (.join side p s x q) p t' sh' := by
  obtain ⟨t', sh', values, hrun, hrestores, -⟩ :=
    rebalanceForming_restores (hsp.holds (Shape.link_join ..)) hp hq hheight
  have hstored := hrestores.stored
  rw [Path.link_place] at hstored
  refine ⟨t', sh', ?_, hsp.replace hstored hrestores.rehung ?_, hrestores⟩
  · rw [rebalance_eq, hrun]
    rfl
  · exact Shape.slots_perm .right hrestores.listed

private theorem exists_taller {l r : Shape α} {n : Node α} (h : t.Holds place (.node l s x r))
    (hl : l.Balanced) (hr : r.Balanced) (hn : t.nodeAt? s = some n)
    (hlean : n.balance = 2 ∨ n.balance = -2) :
    ∃ side p q, Shape.node l s x r = .join side p s x q ∧ l.taller r = p ∧ p.Balanced ∧
      q.Balanced ∧ p.height = q.height + 2 := by
  have hs := h.stored.1
  rw [hn, Option.some.injEq] at hs
  subst hs
  simp only at hlean
  rcases hlean with hleft | hright
  · have hheight : l.height = r.height + 2 := by omega
    exact ⟨.left, l, r, rfl, if_pos (by omega), hl, hr, hheight⟩
  · have hheight : r.height = l.height + 2 := by omega
    exact ⟨.right, r, l, rfl, if_neg (by omega), hr, hl, hheight⟩

/-- A node whose exact balance is 2 or -2, above balanced subtrees and wherever it hangs, is set
right. Whether the subtree has lost a level is told by the balance of its new root, and no number
that is formed on the way leaves the range from -2 to 2. -/
theorem rebalance_restores {l r : Shape α} {n : Node α} (h : t.Holds place (.node l s x r))
    (hl : l.Balanced) (hr : r.Balanced) (hn : t.nodeAt? s = some n)
    (hlean : n.balance = 2 ∨ n.balance = -2) :
    ∃ t' sh' values top child, t.rebalance (some s) = .ok (sh'.link, t') ∧
      t.Restores place (.node l s x r) (l.taller r) t' sh' ∧
      t'.node sh'.link = .ok top ∧ t.node (l.taller r).link = .ok child ∧
      (top.balance ≠ 0 ↔ child.balance = 0) ∧
      t.rebalanceForming (some s) = .ok (values, sh'.link, t') ∧ ∀ v ∈ values, -2 ≤ v ∧ v ≤ 2 := by
  obtain ⟨side, p, q, hnode, htaller, hp, hq, hheight⟩ := exists_taller h hl hr hn hlean
  rw [hnode] at h ⊢
  rw [htaller]
  obtain ⟨t', sh', values, hrun, hrestores, hsmall⟩ := rebalanceForming_restores h hp hq hheight
  have hpos : 0 < sh'.height := by
    have hlost := hrestores.height
    rw [Shape.height_join] at hlost
    split at hlost <;> omega
  obtain ⟨u, hu⟩ := Shape.exists_link hpos
  obtain ⟨v, hv⟩ := Shape.exists_link (show 0 < p.height by omega)
  obtain ⟨top, htop, -, hbalance⟩ := exists_root_of_stored hrestores.stored hu
  obtain ⟨child, hchild, -, hbalance'⟩ := exists_root_of_stored (h.child hv).stored hv
  refine ⟨t', sh', values, top, child, ?_, hrestores, hu ▸ htop, hv ▸ hchild, ?_, hrun, hsmall⟩
  · rw [rebalance_eq, hrun]
    rfl
  · rw [hbalance, hbalance']
    exact hrestores.tilt

/-- A left child that leans to the right, below a node that is itself a right child: the subtree
loses a level. -/
theorem rebalance_restores_inward :
    ∃ (t t' : Tree Nat) (l sh' : Shape Nat), l.Balanced ∧
      t.Holds (.below .right 0) (.node l 1 70 .nil) ∧
      t.rebalance (some 1) = .ok (sh'.link, t') ∧ sh'.height = 2 ∧
      t.Restores (.below .right 0) (.node l 1 70 .nil) l t' sh' := by
  let t : Tree Nat :=
    { nodes :=
        { cells := #[⟨⟨40, none, some 1, none, -3⟩, true⟩, ⟨⟨70, some 2, none, some 0, 2⟩, true⟩,
            ⟨⟨50, none, some 3, some 1, -1⟩, true⟩, ⟨⟨60, none, none, some 2, 0⟩, true⟩]
          freed := [], frontier := 4, size := 4, guarded := false }
      root := some 0 }
  let l : Shape Nat := .node .nil 2 50 (.node .nil 3 60 .nil)
  have hl : l.Balanced := by simp [l, Shape.Balanced, Shape.height]
  have hholds : t.Holds (.below .right 0) (.node l 1 70 .nil) :=
    { stored := ⟨rfl, ⟨rfl, trivial, rfl, trivial, trivial⟩, trivial⟩
      leads := ⟨_, rfl, rfl, rfl⟩
      nodup := by decide }
  obtain ⟨t', sh', -, -, -, hrun, hrestores, -⟩ :=
    rebalance_restores hholds hl trivial (show t.nodeAt? 1 = some _ from rfl) (.inl rfl)
  have hheight : sh'.height = 2 := by
    have hlost := hrestores.height
    simpa [l, Shape.taller, Shape.tilt, Shape.height] using hlost
  exact ⟨t, t', l, sh', hl, hholds, hrun, hheight, hrestores⟩

end Tree
end TableIndex
