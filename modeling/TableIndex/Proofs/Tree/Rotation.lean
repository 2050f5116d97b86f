import TableIndex.Proofs.Tree.Place

/-!
# Rotations

A rotation changes the links and the balances of two nodes, the parent link of the subtree between
them and one link above. It keeps the nodes in order, and the new balances are exact whatever the
heights were. The rotation is followed here with a list of all numbers that it forms on the way to
the new balances.
-/

namespace TableIndex

namespace Shape

variable {α : Type}

private theorem slots_join_join (side : Side) (a b c : Shape α) (x z : Slot) (rx rz : α) :
    (join side a x rx (join side b z rz c)).slots.Perm
      (x :: z :: (a.slots ++ (b.slots ++ c.slots))) := by
  refine (slots_join side a x rx _).trans (List.Perm.cons _ ?_)
  refine ((slots_join side b z rz c).append_left a.slots).trans ?_
  exact List.perm_middle

theorem listed_rotated (side : Side) (a b c : Shape α) (x z : Slot) (rx rz : α) :
    (join side (join side a x rx b) z rz c).listed side =
      (join side a x rx (join side b z rz c)).listed side := by
  simp [listed_join]

theorem listed_join_congr {side : Side} {p p' : Shape α} (h : p'.listed side = p.listed side)
    (s : Slot) (x : α) (q : Shape α) :
    (join side p' s x q).listed side = (join side p s x q).listed side := by
  rw [listed_join, listed_join, h]

end Shape

namespace Tree

variable {α : Type}

theorem setParent_stored {t : Tree α} {sh : Shape α} {p : Link} (h : sh.Stored t p)
    (hnd : sh.slots.Nodup) (q : Link) :
    ∃ t', t.setParent sh.link q = .ok t' ∧ sh.Stored t' q ∧ t'.root = t.root ∧
      Arena.SameSlots t.nodes t'.nodes ∧ ∀ u, u ∉ sh.slots → t'.nodeAt? u = t.nodeAt? u := by
  cases sh with
  | nil => exact ⟨t, rfl, trivial, rfl, Arena.SameSlots.refl _, fun _ _ => rfl⟩
  | node l s x r =>
      have hperm : (Shape.node l s x r).slots.Perm _ := Shape.slots_join .left l s x r
      have hnd' := hperm.nodup_iff.mp hnd
      simp only [List.nodup_cons, List.mem_append, not_or] at hnd'
      obtain ⟨hs, hl, hr⟩ := h
      refine ⟨t.put s ⟨x, l.link, r.link, q, l.height - r.height⟩, ?_, ?_, rfl,
        sameSlots_put hs _, ?_⟩
      · exact edit_of_nodeAt? (fun n => { n with parent := q }) hs
      · exact ⟨nodeAt?_put_self hs _, hl.put hnd'.1.1 _, hr.put hnd'.1.2 _⟩
      · intro u hu
        have hus : u ≠ s := fun e => hu (hperm.mem_iff.mpr (by simp [e]))
        exact nodeAt?_put_ne hus _

/-- The part of a rotation that changes links. -/
def turn (t : Tree α) (side : Side) (x : Link) : Checked (Link × Tree α) := do
  let z := (← t.node x).child side.other
  let inner := (← t.node z).child side
  let parent := (← t.node x).parent
  let t ← t.edit x (·.withChild side.other inner)
  let t ← t.setParent inner x
  let t ← t.edit z (·.withChild side x)
  let t ← t.edit x fun n => { n with parent := z }
  let t ← t.edit z fun n => { n with parent }
  let t ← t.relink parent x z
  return (z, t)

/-- The part of a rotation that changes balances, with every number that it forms. -/
def retilt (t : Tree α) (side : Side) (x z : Link) : Checked (List Int × Tree α) := do
  let w := side.weight
  let lower := w * (← t.node x).balance
  let upper := w * (← t.node z).balance
  let lowerRaised := lower + 1
  let taken := min upper 0
  let lower' := lowerRaised - taken
  let upperRaised := upper + 1
  let added := max lower' 0
  let upper' := upperRaised + added
  let t ← t.edit x fun n => { n with balance := w * lower' }
  let t ← t.edit z fun n => { n with balance := w * upper' }
  return ([lowerRaised, taken, lower', upperRaised, added, upper'].map (w * ·), t)

/-- A rotation with the numbers that it forms. -/
def rotateForming (t : Tree α) (side : Side) (x : Link) : Checked (List Int × Link × Tree α) := do
  let (z, t) ← t.turn side x
  let (values, t) ← t.retilt side x z
  return (values, z, t)

theorem rotate_eq (t : Tree α) (side : Side) (x : Link) :
    t.rotate side x = Prod.snd <$> t.rotateForming side x := by
  simp only [rotate, rotateForming, turn, retilt, bind_assoc, pure_bind, map_bind, map_pure]

/-- The numbers that a rotation forms, from the balances before. -/
def formed (side : Side) (lower upper : Int) : List Int :=
  let lower' := lower + 1 - min upper 0
  [lower + 1, min upper 0, lower', upper + 1, max lower' 0, upper + 1 + max lower' 0].map
    (side.weight * ·)

/-- The tree `t'` differs from `t` in the nodes `x` and `z`, which are `lower` and `upper` now, and
in the parent of the subtree `b`, which is `parent` now. -/
private structure Turning (t : Tree α) (x z : Slot) (b : Shape α) (lower upper : Node α)
    (parent : Link) (t' : Tree α) : Prop where
  lower : t'.nodeAt? x = some lower
  upper : t'.nodeAt? z = some upper
  inner : b.Stored t' parent
  root : t'.root = t.root
  others : ∀ u, u ≠ x → u ≠ z → u ∉ b.slots → t'.nodeAt? u = t.nodeAt? u
  same : Arena.SameSlots t.nodes t'.nodes

/-- Two nodes and a subtree without either of them. -/
private structure Apart (x z : Slot) (b : Shape α) : Prop where
  ne : x ≠ z
  lower : x ∉ b.slots
  upper : z ∉ b.slots
  nodup : b.slots.Nodup

namespace Turning

variable {t t' : Tree α} {x z : Slot} {b : Shape α} {lower upper : Node α} {parent : Link}

private theorem edit_lower (h : Turning t x z b lower upper parent t') (hd : Apart x z b)
    (f : Node α → Node α) :
    ∃ t'', t'.edit (some x) f = .ok t'' ∧ Turning t x z b (f lower) upper parent t'' := by
  refine ⟨t'.put x (f lower), edit_of_nodeAt? f h.lower, nodeAt?_put_self h.lower _, ?_,
    h.inner.put hd.lower _, h.root, fun u hux huz hub => ?_, h.same.trans (sameSlots_put h.lower _)⟩
  · rw [nodeAt?_put_ne hd.ne.symm, h.upper]
  · rw [nodeAt?_put_ne hux, h.others u hux huz hub]

private theorem edit_upper (h : Turning t x z b lower upper parent t') (hd : Apart x z b)
    (f : Node α → Node α) :
    ∃ t'', t'.edit (some z) f = .ok t'' ∧ Turning t x z b lower (f upper) parent t'' := by
  refine ⟨t'.put z (f upper), edit_of_nodeAt? f h.upper, ?_, nodeAt?_put_self h.upper _,
    h.inner.put hd.upper _, h.root, fun u hux huz hub => ?_, h.same.trans (sameSlots_put h.upper _)⟩
  · rw [nodeAt?_put_ne hd.ne, h.lower]
  · rw [nodeAt?_put_ne huz, h.others u hux huz hub]

private theorem adopt (h : Turning t x z b lower upper parent t') (hd : Apart x z b) (q : Link) :
    ∃ t'', t'.setParent b.link q = .ok t'' ∧ Turning t x z b lower upper q t'' := by
  obtain ⟨t'', hset, hb, hroot, hsame, hother⟩ := setParent_stored h.inner hd.nodup q
  refine ⟨t'', hset, ?_, ?_, hb, hroot.trans h.root, fun u hux huz hub => ?_, h.same.trans hsame⟩
  · rw [hother x hd.lower, h.lower]
  · rw [hother z hd.upper, h.upper]
  · rw [hother u hub, h.others u hux huz hub]

private theorem hang (h : Turning t x z b lower upper parent t') {place : Place}
    (hx : place.link ≠ some x) (hz : place.link ≠ some z)
    (hb : ∀ u ∈ b.slots, place.link ≠ some u) (l : Link) :
    Turning (t.hang place l) x z b lower upper parent (t'.hang place l) where
  lower := by rw [nodeAt?_hang_of_ne t' hx, h.lower]
  upper := by rw [nodeAt?_hang_of_ne t' hz, h.upper]
  inner := h.inner.congr fun u hu => nodeAt?_hang_of_ne t' (hb u hu) l
  root := root_hang_congr h.root place l
  others u hux huz hub := nodeAt?_hang_congr (h.others u hux huz hub) place l
  same := ((sameSlots_hang t place l).symm.trans h.same).trans (sameSlots_hang t' place l)

end Turning

variable {t t' : Tree α} {place : Place} {side : Side} {a b c : Shape α} {x z : Slot} {rx rz : α}

theorem weight_cancel (side : Side) (b : Int) : side.weight * (side.weight * b) = b := by
  rw [← mul_assoc, Side.weight_mul_weight, one_mul]

private theorem turn_turning {near far : Link} {lower upper : Int}
    (h : Turning t x z b (.facing side rx near (some z) place.link lower)
      (.facing side rz b.link far (some x) upper) (some z) t)
    (hd : Apart x z b) (hleads : t.Leads place (some x)) (hx : place.link ≠ some x)
    (hz : place.link ≠ some z) (hb : ∀ u ∈ b.slots, place.link ≠ some u) :
    ∃ t', t.turn side (some x) = .ok (some z, t') ∧
      Turning (t.hang place (some z)) x z b (.facing side rx near b.link (some z) lower)
        (.facing side rz (some x) far place.link upper) (some x) t' := by
  obtain ⟨t₁, he₁, h₁⟩ := h.edit_lower hd (·.withChild side.other b.link)
  obtain ⟨t₂, he₂, h₂⟩ := h₁.adopt hd (some x)
  obtain ⟨t₃, he₃, h₃⟩ := h₂.edit_upper hd (·.withChild side (some x))
  obtain ⟨t₄, he₄, h₄⟩ := h₃.edit_lower hd fun n => { n with parent := some z }
  obtain ⟨t₅, he₅, h₅⟩ := h₄.edit_upper hd fun n => { n with parent := place.link }
  rw [Node.facing_withChild_other, Node.facing_setParent, Node.facing_withChild,
    Node.facing_setParent] at h₅
  have hleads₅ : t₅.Leads place (some x) := by
    cases place with
    | root => exact h₅.root.trans hleads
    | below d u =>
        obtain ⟨n, hn, hchild, hside⟩ := hleads
        refine ⟨n, ?_, hchild, hside⟩
        rw [h₅.others u (fun e => hx (congrArg some e)) (fun e => hz (congrArg some e))
          (fun hm => hb u hm rfl), hn]
  refine ⟨t₅.hang place (some z), ?_, h₅.hang hx hz hb (some z)⟩
  simp only [turn, node_of_nodeAt? h.lower, node_of_nodeAt? h.upper, ok_bind, pure_eq_ok,
    Node.facing_child_other, Node.facing_child, Node.facing_parent, he₁, he₂, he₃, he₄, he₅,
    relink_of_leads hleads₅]

private theorem retilt_turning {near far near' far' p p' q : Link} {lower upper : Int}
    (h : Turning t x z b (.facing side rx near far p lower) (.facing side rz near' far' p' upper)
      q t') (hd : Apart x z b) :
    ∃ t'', t'.retilt side (some x) (some z) = .ok (formed side lower upper, t'') ∧
      Turning t x z b (.facing side rx near far p (lower + 1 - min upper 0))
        (.facing side rz near' far' p' (upper + 1 + max (lower + 1 - min upper 0) 0)) q t'' := by
  obtain ⟨t₁, he₁, h₁⟩ := h.edit_lower hd fun n =>
    { n with balance := side.weight * (lower + 1 - min upper 0) }
  obtain ⟨t₂, he₂, h₂⟩ := h₁.edit_upper hd fun n =>
    { n with balance := side.weight * (upper + 1 + max (lower + 1 - min upper 0) 0) }
  rw [Node.facing_setBalance, Node.facing_setBalance] at h₂
  refine ⟨t₂, ?_, h₂⟩
  simp only [retilt, node_of_nodeAt? h.lower, node_of_nodeAt? h.upper, ok_bind, pure_eq_ok,
    Node.facing_balance, weight_cancel, he₁, he₂]
  rfl

private theorem lower_tilt (a b c : Nat) :
    (a - (1 + max b c : Nat) : Int) + 1 - min ((b : Int) - c) 0 = a - b := by
  push_cast
  omega

private theorem upper_tilt (a b c : Nat) :
    ((b : Int) - c) + 1 + max ((a : Int) - b) 0 = (1 + max a b : Nat) - c := by
  push_cast
  omega

theorem rotateForming_holds (h : t.Holds place (.join side a x rx (.join side b z rz c))) :
    ∃ t', t.rotateForming side (some x) =
        .ok (formed side (a.height - (1 + max b.height c.height : Nat)) (b.height - c.height),
          some z, t') ∧
      (Shape.join side (.join side a x rx b) z rz c).Stored t' place.link ∧
      t.Rehung place (Shape.join side a x rx (.join side b z rz c)).slots (some z) t' := by
  have hperm := Shape.slots_join_join side a b c x z rx rz
  have hnd := hperm.nodup_iff.mp h.nodup
  have hplace : ∀ u ∈ x :: z :: (a.slots ++ (b.slots ++ c.slots)), place.link ≠ some u :=
    fun u hu => h.parent_notMem (hperm.mem_iff.mpr hu)
  simp only [List.nodup_cons, List.mem_cons, List.mem_append, not_or, List.nodup_append] at hnd
  obtain ⟨⟨hxz, hxa, hxb, hxc⟩, ⟨hza, hzb, hzc⟩, -, ⟨hbnd, -, hbc⟩, habc⟩ := hnd
  have hd : Apart x z b := ⟨hxz, hxb, hzb, hbnd⟩
  have hstored := h.stored
  rw [Shape.stored_join, Shape.stored_join, Shape.link_join, Shape.height_join] at hstored
  obtain ⟨hx, ha, hz, hb, hc⟩ := hstored
  have hleads := h.leads
  rw [Shape.link_join] at hleads
  obtain ⟨t₁, hturn, h₁⟩ := turn_turning ⟨hx, hz, hb, rfl, fun _ _ _ _ => rfl, .refl _⟩ hd hleads
    (hplace x (by simp)) (hplace z (by simp)) fun u hu => hplace u (by simp [hu])
  obtain ⟨t₂, hretilt, h₂⟩ := retilt_turning h₁ hd
  rw [lower_tilt, upper_tilt] at h₂
  have hkept : ∀ u ∈ a.slots ++ c.slots, t₂.nodeAt? u = t.nodeAt? u := by
    intro u hu
    have hux : u ≠ x := ne_of_mem_of_not_mem hu (by simp [hxa, hxc])
    have huz : u ≠ z := ne_of_mem_of_not_mem hu (by simp [hza, hzc])
    have hub : u ∉ b.slots := by
      intro hub
      rcases List.mem_append.mp hu with hua | huc
      · exact habc u hua u (.inl hub) rfl
      · exact hbc u hub u huc rfl
    rw [h₂.others u hux huz hub, nodeAt?_hang_of_ne t (hplace u ?_)]
    rcases List.mem_append.mp hu with hua | huc
    · simp [hua]
    · simp [huc]
  refine ⟨t₂, ?_, ?_, h₂.root, fun u hu => ?_, ?_⟩
  · simp only [rotateForming, hturn, hretilt, ok_bind, pure_eq_ok]
  · rw [Shape.stored_join, Shape.stored_join, Shape.link_join, Shape.height_join]
    exact ⟨h₂.upper, ⟨h₂.lower, ha.congr fun u hu => hkept u (by simp [hu]), h₂.inner⟩,
      hc.congr fun u hu => hkept u (by simp [hu])⟩
  · rw [hperm.mem_iff] at hu
    simp only [List.mem_cons, List.mem_append, not_or] at hu
    exact h₂.others u hu.1 hu.2.1 hu.2.2.2.1
  · exact (sameSlots_hang t place (some z)).trans h₂.same

theorem root_of_stored {t : Tree α} {parent : Link} {side : Side} {p q : Shape α} {s : Slot}
    {x : α} (h : (Shape.join side p s x q).Stored t parent) :
    ∃ n, t.node (some s) = .ok n ∧ n.row = x ∧ n.child side = p.link ∧
      n.child side.other = q.link ∧ n.parent = parent ∧
      n.balance = (Shape.join side p s x q).tilt := by
  have hs := ((Shape.stored_join ..).mp h).1
  exact ⟨_, node_of_nodeAt? hs, by simp, by simp, by simp, by simp, by simp [Shape.tilt_join]⟩

/-- What the node at the root of a stored shape says of it. -/
theorem exists_root_of_stored {t : Tree α} {parent : Link} {sh : Shape α} {r : Slot}
    (h : sh.Stored t parent) (hr : sh.link = some r) :
    ∃ n, t.node (some r) = .ok n ∧ n.parent = parent ∧ n.balance = sh.tilt := by
  obtain rfl | ⟨p, s, x, q, rfl⟩ := Shape.eq_nil_or_join .left sh
  · cases hr
  · rw [Shape.link_join] at hr
    obtain rfl := Option.some.inj hr
    obtain ⟨n, hn, -, -, -, hparent, hbalance⟩ := root_of_stored h
    exact ⟨n, hn, hparent, hbalance⟩

end Tree
end TableIndex
