import Mathlib.Data.List.TakeWhile
import TableIndex.Proofs.Tree.Layout

/-!
# Walks

A walk on a tree that holds a shape meets no fault and ends: there are more steps than levels. The
neighbour of a node is the next one in the listing toward a side; a search for a property that
holds from some row on finds the first node with it; a descent for a new row ends at an open link,
between the rows that it does not precede and those that it precedes.
-/

namespace TableIndex

/-- The gap is the open link at the end of the path. -/
structure Gap.At {α : Type} (gap : Gap) (path : Path α) : Prop where
  parent : gap.parent = path.link
  side : path.link ≠ none → gap.side = path.side
  before : gap.before = (path.beyond .left).head?.map Prod.fst
  after : gap.after = (path.beyond .right).head?.map Prod.fst

theorem Gap.at_top {α : Type} : Gap.At ⟨none, .left, none, none⟩ (Path.top : Path α) :=
  ⟨rfl, fun h => absurd rfl h, rfl, rfl⟩

namespace Tree

variable {α : Type}

namespace HasShape

variable {t : Tree α} {sh : Shape α}

theorem length_le_reach (h : t.HasShape sh) : sh.slots.length ≤ t.reach := by
  rw [h.length_slots]
  exact Arena.size_le_capacity h.sound

theorem height_le_reach (h : t.HasShape sh) : sh.height ≤ t.reach :=
  (Shape.height_le_length sh).trans h.length_le_reach

theorem path_le_reach {path : Path α} (h : t.HasShape (path.plug sh)) :
    path.length ≤ t.reach := by
  have hle := h.length_le_reach
  rw [(Path.slots_plug path sh).length_eq, List.length_append] at hle
  have := path.length_le
  omega

end HasShape

/-- The way down on one side ends at a node without a child there. -/
theorem descendTo_stored {t : Tree α} {parent : Link} {sh : Shape α} (side : Side) {r : Slot}
    {fuel : Nat} (h : sh.Stored t parent) (hr : sh.link = some r) (hfuel : sh.height ≤ fuel) :
    ∃ (path : Path α) (s : Slot) (x : α) (q : Shape α),
      t.descendTo side fuel (some r) = .ok (some s) ∧ sh = path.plug (.join side .nil s x q) ∧
      path.Counts (Shape.join side .nil s x q).height ∧ path.beyond side = [] := by
  induction fuel generalizing sh parent r with
  | zero =>
      obtain rfl := Shape.height_eq_zero.mp (Nat.le_zero.mp hfuel)
      simp at hr
  | succ fuel ih =>
      obtain rfl | ⟨p, u, x, q, rfl⟩ := Shape.eq_nil_or_join side sh
      · simp at hr
      rw [Shape.link_join, Option.some.injEq] at hr
      subst u
      rw [Shape.stored_join] at h
      obtain ⟨hs, hp, -⟩ := h
      rw [descendTo, node_of_nodeAt? hs, ok_bind, Node.facing_child]
      cases hlink : p.link with
      | none =>
          obtain rfl := Shape.link_eq_none.mp hlink
          exact ⟨Path.top, r, x, q, rfl, rfl, trivial, rfl⟩
      | some u =>
          rw [Shape.height_join] at hfuel
          obtain ⟨path, s, y, q', hrun, rfl, hc, hend⟩ := ih hp hlink (by omega)
          refine ⟨path.append (.step side r x
            ((path.plug (.join side .nil s y q')).height - q.height) q .top), s, y, q', hrun, ?_,
            Path.counts_append.mpr ⟨hc, rfl, trivial⟩, ?_⟩
          · rw [Path.plug_append]
            rfl
          · rw [Path.beyond_append, hend]
            simp [Path.beyond]

private theorem extreme_stored {t : Tree α} {parent : Link} {sh : Shape α} {r : Slot} (side : Side)
    (h : sh.Stored t parent) (hr : sh.link = some r) (hfuel : sh.height ≤ t.reach) :
    t.extreme side (some r) = .ok ((sh.listed side).getLast?.map Prod.fst) := by
  obtain ⟨path, s, x, q, hrun, rfl, -, hend⟩ := descendTo_stored side h hr hfuel
  rw [extreme, hrun, Path.listed_plug, hend, Shape.listed_join]
  simp

private theorem climb_stored {t : Tree α} {path : Path α} {r : Slot} {fuel : Nat} (side : Side)
    (hp : path.Stored t (some r)) (hnd : path.slots.Nodup) (hr : r ∉ path.slots)
    (hfuel : path.length ≤ fuel) :
    t.climb side fuel (some r) path.link = .ok ((path.beyond side).head?.map Prod.fst) := by
  induction path generalizing r fuel with
  | top => rw [Path.link_top, climb]; rfl
  | step d s x tilt sibling up ih =>
      obtain ⟨fuel, rfl⟩ : ∃ f, fuel = f + 1 := ⟨fuel - 1, by simp [Path.length] at hfuel; omega⟩
      obtain ⟨hs, -, hup⟩ := hp
      simp only [Path.slots, List.nodup_cons, List.mem_append, not_or] at hnd
      simp only [Path.slots, List.mem_cons, List.mem_append, not_or] at hr
      rw [Path.link_step, climb, node_of_nodeAt? hs, ok_bind]
      rcases Side.eq_or_eq_other d side with rfl | rfl
      · rw [Node.facing_child, if_pos rfl, Node.facing_parent]
        have := ih hup (List.nodup_append.mp hnd.2).2.1 hnd.1.2
          (show up.length ≤ fuel by simp only [Path.length] at hfuel; omega)
        simpa [Path.beyond] using this
      · have hne : sibling.link ≠ some r := fun e => hr.2.1 (Shape.link_mem e)
        have hchild := Node.facing_child_other side.other x (some r) sibling.link up.link tilt
        rw [Side.other_other] at hchild
        rw [hchild, if_neg hne]
        simp [Path.beyond]

private theorem neighbor_split {t : Tree α} {path : Path α} {side : Side} {p q : Shape α}
    {s : Slot} {x : α} (h : t.HasShape (path.plug (.join side p s x q)))
    (hc : path.Counts (Shape.join side p s x q).height) :
    t.neighbor side (some s) =
      .ok ((p.listed side ++ path.beyond side).head?.map Prod.fst) := by
  have hsp := h.split hc
  have hst := (Shape.stored_join ..).mp hsp.stored
  rw [neighbor, node_of_nodeAt? hst.1, ok_bind, Node.facing_child, Node.facing_parent]
  cases hlink : p.link with
  | none =>
      obtain rfl := Shape.link_eq_none.mp hlink
      have habove := hsp.above
      rw [Shape.link_join] at habove
      have hs : s ∉ path.slots := hsp.not_mem_path (Shape.link_mem (Shape.link_join ..))
      simpa using climb_stored side habove hsp.nodup_path hs h.path_le_reach
  | some r =>
      have hheight : p.height ≤ t.reach := by
        have hle := h.length_le_reach
        have hp := Shape.height_le_length p
        rw [(Path.slots_plug ..).length_eq, List.length_append,
          (Shape.slots_join ..).length_eq] at hle
        simp only [List.length_cons, List.length_append] at hle
        omega
      have hne : p.listed side ≠ [] := by
        intro he
        have := Shape.link_mem hlink
        rw [Shape.mem_slots side, he] at this
        simp at this
      show t.extreme side.other (some r) = _
      rw [extreme_stored side.other hst.2.1 hlink hheight, Shape.listed_other,
        List.getLast?_reverse, List.head?_append_of_ne_nil _ hne]

/-- In the listing toward a side every node is followed by its neighbour. -/
theorem neighbor_listed {t : Tree α} {sh : Shape α} {side : Side} {s : Slot} {x : α}
    {before after : List (Slot × α)} (h : t.HasShape sh)
    (hlist : sh.listed side = before ++ (s, x) :: after) :
    t.row (some s) = .ok x ∧ t.neighbor side (some s) = .ok (after.head?.map Prod.fst) := by
  obtain ⟨path, p, q, rfl, hc, -, rfl⟩ := Shape.exists_path_of_listed h.nodup hlist
  have hst := (Shape.stored_join ..).mp (h.split hc).stored
  exact ⟨by rw [row_of_nodeAt? hst.1, Node.facing_row], neighbor_split h hc⟩

/-- The first node in the listing toward a side is the end of the tree on the other side. -/
theorem endmost_listed {t : Tree α} {sh : Shape α} (h : t.HasShape sh) (side : Side) :
    t.endmost side.other = .ok ((sh.listed side).head?.map Prod.fst) := by
  unfold endmost
  cases hr : t.root with
  | none =>
      have hlink := h.root_eq.symm.trans hr
      obtain rfl := Shape.link_eq_none.mp hlink
      rfl
  | some r =>
      have hlink := h.root_eq.symm.trans hr
      show t.extreme side.other (some r) = _
      rw [extreme_stored side.other h.stored hlink h.height_le_reach, Shape.listed_other,
        List.getLast?_reverse]

theorem searchFrom_mem {t : Tree α} {parent : Link} {sh : Shape α} (side : Side) (p : α → Bool)
    {fuel : Nat} (found : Link) (h : sh.Stored t parent) (hfuel : sh.height ≤ fuel) :
    ∃ l, t.searchFrom side p fuel found sh.link = .ok l ∧
      (l = found ∨ ∃ s ∈ sh.slots, l = some s) := by
  induction fuel generalizing sh parent found with
  | zero =>
      obtain rfl := Shape.height_eq_zero.mp (Nat.le_zero.mp hfuel)
      exact ⟨found, by rw [Shape.link_nil, searchFrom], .inl rfl⟩
  | succ fuel ih =>
      obtain rfl | ⟨a, s, x, b, rfl⟩ := Shape.eq_nil_or_join side sh
      · exact ⟨found, by rw [Shape.link_nil, searchFrom], .inl rfl⟩
      rw [Shape.stored_join] at h
      rw [Shape.height_join] at hfuel
      obtain ⟨hs, ha, hb⟩ := h
      have hperm := Shape.slots_join side a s x b
      rw [Shape.link_join, searchFrom, node_of_nodeAt? hs, ok_bind, Node.facing_row,
        Node.facing_child, Node.facing_child_other]
      by_cases hx : p x = true
      · rw [if_pos hx]
        obtain ⟨l, hrun, rfl | ⟨u, hu, rfl⟩⟩ := ih (some s) ha (by omega)
        · exact ⟨_, hrun, .inr ⟨s, hperm.mem_iff.mpr (by simp), rfl⟩⟩
        · exact ⟨_, hrun, .inr ⟨u, hperm.mem_iff.mpr (by simp [hu]), rfl⟩⟩
      · rw [if_neg hx]
        obtain ⟨l, hrun, rfl | ⟨u, hu, rfl⟩⟩ := ih found hb (by omega)
        · exact ⟨_, hrun, .inl rfl⟩
        · exact ⟨_, hrun, .inr ⟨u, hperm.mem_iff.mpr (by simp [hu]), rfl⟩⟩

private theorem searchFrom_stored {t : Tree α} {parent : Link} {sh : Shape α} {side : Side}
    {p : α → Bool} {fuel : Nat} (found : Link) (h : sh.Stored t parent) (hfuel : sh.height ≤ fuel)
    (hmono : (sh.listed side.other).Pairwise fun a b => p a.2 = true → p b.2 = true) :
    t.searchFrom side p fuel found sh.link =
      .ok ((((sh.listed side.other).find? fun e => p e.2).map Prod.fst).or found) := by
  induction fuel generalizing sh parent found with
  | zero =>
      obtain rfl := Shape.height_eq_zero.mp (Nat.le_zero.mp hfuel)
      rw [Shape.link_nil, searchFrom]
      rfl
  | succ fuel ih =>
      obtain rfl | ⟨a, s, x, b, rfl⟩ := Shape.eq_nil_or_join side sh
      · rw [Shape.link_nil, searchFrom]
        rfl
      rw [Shape.stored_join] at h
      rw [Shape.height_join] at hfuel
      obtain ⟨hs, ha, hb⟩ := h
      rw [Shape.listed_join_other, List.pairwise_append, List.pairwise_cons] at hmono
      obtain ⟨hmonoa, ⟨-, hmonob⟩, hbefore⟩ := hmono
      rw [Shape.link_join, searchFrom, node_of_nodeAt? hs, ok_bind, Node.facing_row,
        Node.facing_child, Node.facing_child_other, Shape.listed_join_other, List.find?_append]
      by_cases hx : p x = true
      · -- this node is the answer unless an earlier one has the property too
        rw [if_pos hx, ih (some s) ha (by omega) hmonoa, List.find?_cons, hx]
        cases (a.listed side.other).find? fun e => p e.2 <;> rfl
      · have hnone : (a.listed side.other).find? (fun e => p e.2) = none := by
          rw [List.find?_eq_none]
          intro e he hp
          exact hx (hbefore e he (s, x) (by simp) hp)
        rw [if_neg hx, ih found hb (by omega) hmonob, hnone, List.find?_cons,
          Bool.eq_false_of_not_eq_true hx]
        rfl

namespace HasShape

variable {t : Tree α} {sh : Shape α}

theorem boundary_mem (h : t.HasShape sh) (side : Side) (p : α → Bool) :
    ∃ l, t.boundary side p = .ok l ∧ ∀ s, l = some s → s ∈ sh.slots := by
  obtain ⟨l, hrun, hl⟩ := searchFrom_mem side p none h.stored h.height_le_reach
  refine ⟨l, ?_, ?_⟩
  · rw [boundary, h.root_eq]
    exact hrun
  · rintro s rfl
    simpa using hl

private theorem boundary_eq (h : t.HasShape sh) (side : Side) {p : α → Bool}
    (hmono : (sh.listed side.other).Pairwise fun a b => p a.2 = true → p b.2 = true) :
    t.boundary side p = .ok (((sh.listed side.other).find? fun e => p e.2).map Prod.fst) := by
  rw [boundary, h.root_eq, searchFrom_stored none h.stored h.height_le_reach hmono, Option.or_none]

/-- A search for a property that stays true once it is splits the listing at the node it finds. -/
theorem boundary_split (h : t.HasShape sh) (side : Side) {p : α → Bool}
    (hmono : (sh.listed side.other).Pairwise fun a b => p a.2 = true → p b.2 = true) :
    ∃ before after, sh.listed side.other = before ++ after ∧
      t.boundary side p = .ok (after.head?.map Prod.fst) ∧
      (∀ e ∈ before, p e.2 = false) ∧ ∀ e ∈ after, p e.2 = true := by
  have hsplit := List.takeWhile_append_dropWhile (p := fun e : Slot × α => !p e.2)
    (l := sh.listed side.other)
  have hhead := List.head?_dropWhile_not (fun e : Slot × α => !p e.2) (sh.listed side.other)
  refine ⟨_, _, hsplit.symm, ?_, ?_, ?_⟩
  · rw [h.boundary_eq side hmono, List.find?_eq_head?_dropWhile_not]
  · intro e he
    simpa using List.mem_takeWhile_imp he
  · rw [← hsplit, List.pairwise_append] at hmono
    cases hd : (sh.listed side.other).dropWhile fun e => !p e.2 with
    | nil => simp
    | cons d rest =>
        rw [hd] at hmono hhead
        have hp : p d.2 = true := by simpa using hhead
        intro e he
        rcases List.mem_cons.mp he with rfl | he
        · exact hp
        · exact (List.pairwise_cons.mp hmono.2.1).1 e he hp

/-- A search for a property of which the listing shows where it begins. -/
theorem boundary_of_append (h : t.HasShape sh) (side : Side) {p : α → Bool}
    {before after : List (Slot × α)} (hlist : sh.listed side.other = before ++ after)
    (hbefore : ∀ e ∈ before, p e.2 = false) (hafter : ∀ e ∈ after, p e.2 = true) :
    t.boundary side p = .ok (after.head?.map Prod.fst) := by
  have hmono : (sh.listed side.other).Pairwise fun a b => p a.2 = true → p b.2 = true := by
    rw [hlist, List.pairwise_append]
    refine ⟨?_, ?_, ?_⟩
    · refine List.pairwise_of_forall_mem_list fun a ha b _ hp => ?_
      rw [hbefore a ha] at hp
      exact Bool.noConfusion hp
    · exact List.pairwise_of_forall_mem_list fun _ _ b hb _ => hafter b hb
    · intro a ha b hb _
      exact hafter b hb
  have hnone : before.find? (fun e => p e.2) = none := by
    rw [List.find?_eq_none]
    intro e he
    simp [hbefore e he]
  rw [h.boundary_eq side hmono, hlist, List.find?_append, hnone, Option.none_or]
  cases after with
  | nil => rfl
  | cons e after => rw [List.find?_cons, hafter e (by simp)]; rfl

end HasShape

/-- A descent for a new row ends at an open link. If the order of the row depends on nothing but the
row that it is compared with, and it agrees with the order of the tree, then the row precedes
exactly the rows beyond the link on the right. -/
theorem gapFrom_stored {t : Tree α} {parent : Link} {path : Path α} {sh : Shape α}
    (order : List α → α → Ordering) {fuel : Nat} (asked : List α) {gap : Gap}
    (h : sh.Stored t parent) (hfuel : sh.height ≤ fuel) (hat : gap.At path)
    (hc : path.Counts sh.height) :
    ∃ gap' path', t.gapFrom order fuel asked gap sh.link = .ok gap' ∧ gap'.At path' ∧
      path'.plug .nil = path.plug sh ∧ path'.Counts 0 ∧
      ∀ f : α → Ordering, (∀ asked x, order asked x = f x) →
        (sh.listed .right).Pairwise (fun a b => f b.2 ≠ .lt → f a.2 ≠ .lt) →
        (∀ e ∈ path.beyond .left, f e.2 ≠ .lt) → (∀ e ∈ path.beyond .right, f e.2 = .lt) →
        (∀ e ∈ path'.beyond .left, f e.2 ≠ .lt) ∧ ∀ e ∈ path'.beyond .right, f e.2 = .lt := by
  induction fuel generalizing sh parent path asked gap with
  | zero =>
      obtain rfl := Shape.height_eq_zero.mp (Nat.le_zero.mp hfuel)
      exact ⟨gap, path, by rw [Shape.link_nil, gapFrom], hat, rfl, hc, fun _ _ _ hl hr => ⟨hl, hr⟩⟩
  | succ fuel ih =>
      cases sh with
      | nil =>
          exact ⟨gap, path, by rw [Shape.link_nil, gapFrom], hat, rfl, hc,
            fun _ _ _ hl hr => ⟨hl, hr⟩⟩
      | node l s x r =>
          obtain ⟨hs, hl, hr⟩ := h
          have hheight : (Shape.node l s x r).height = 1 + max l.height r.height := rfl
          rw [hheight] at hfuel
          simp only [Shape.link, gapFrom, node_of_nodeAt? hs, ok_bind]
          by_cases hlt : order asked x = .lt
          · rw [if_pos hlt]
            have hat' : Gap.At ⟨some s, .left, gap.before, some s⟩
                (Path.step .left s x (l.height - r.height) r path) :=
              ⟨rfl, fun _ => rfl, by simpa [Path.beyond] using hat.before, by simp [Path.beyond]⟩
            obtain ⟨gap', path', hrun, hat', hplug, hc', hbetween⟩ :=
              ih (x :: asked) hl (by omega) hat' ⟨rfl, hc⟩
            refine ⟨gap', path', hrun, hat', hplug, hc', ?_⟩
            intro f hf hmono hleft hright
            have hx : f x = .lt := (hf asked x).symm.trans hlt
            simp only [Shape.listed, List.pairwise_append, List.pairwise_cons] at hmono
            refine hbetween f hf hmono.1 (by simpa [Path.beyond] using hleft) ?_
            intro e he
            simp only [Path.beyond, reduceCtorEq, if_false, List.mem_cons, List.mem_append] at he
            rcases he with rfl | he | he
            · exact hx
            · by_contra hne
              exact hmono.2.1.1 e he hne hx
            · exact hright e he
          · rw [if_neg hlt]
            have hat' : Gap.At ⟨some s, .right, some s, gap.after⟩
                (Path.step .right s x (r.height - l.height) l path) :=
              ⟨rfl, fun _ => rfl, by simp [Path.beyond], by simpa [Path.beyond] using hat.after⟩
            obtain ⟨gap', path', hrun, hat', hplug, hc', hbetween⟩ :=
              ih (x :: asked) hr (by omega) hat' ⟨rfl, by rwa [max_comm]⟩
            refine ⟨gap', path', hrun, hat', hplug, hc', ?_⟩
            intro f hf hmono hleft hright
            have hx : f x ≠ .lt := by rwa [← hf asked x]
            simp only [Shape.listed, List.pairwise_append, List.pairwise_cons] at hmono
            refine hbetween f hf hmono.2.1.2 ?_ (by simpa [Path.beyond] using hright)
            intro e he
            simp only [Path.beyond, reduceCtorEq, if_false, List.mem_cons, List.mem_append] at he
            rcases he with rfl | he | he
            · exact hx
            · rw [show Side.left = Side.right.other from rfl, Shape.listed_other,
                List.mem_reverse] at he
              exact hmono.2.2 e he (s, x) (by simp) hx
            · exact hleft e he

theorem HasShape.gapBy_at {t : Tree α} {sh : Shape α} (h : t.HasShape sh)
    (order : List α → α → Ordering) :
    ∃ gap path, t.gapBy order = .ok gap ∧ gap.At path ∧ path.plug .nil = sh ∧ path.Counts 0 := by
  obtain ⟨gap, path, hrun, hat, hplug, hc, -⟩ := gapFrom_stored order []
    h.stored h.height_le_reach Gap.at_top trivial
  refine ⟨gap, path, ?_, hat, hplug, hc⟩
  rw [gapBy, h.root_eq, hrun]

/-- The gap for a row under an order that agrees with the order of the tree. -/
theorem HasShape.gap_at {t : Tree α} {sh : Shape α} (h : t.HasShape sh) {f : α → Ordering}
    (hmono : (sh.listed .right).Pairwise fun a b => f b.2 ≠ .lt → f a.2 ≠ .lt) :
    ∃ gap path, t.gap f = .ok gap ∧ gap.At path ∧ path.plug .nil = sh ∧ path.Counts 0 ∧
      (∀ e ∈ path.beyond .left, f e.2 ≠ .lt) ∧ ∀ e ∈ path.beyond .right, f e.2 = .lt := by
  obtain ⟨gap, path, hrun, hat, hplug, hc, hbetween⟩ := gapFrom_stored (fun _ => f) []
    h.stored h.height_le_reach Gap.at_top trivial
  refine ⟨gap, path, ?_, hat, hplug, hc,
    hbetween f (fun _ _ => rfl) hmono (by simp [Path.beyond]) (by simp [Path.beyond])⟩
  rw [Tree.gap, gapBy, h.root_eq, hrun]

end Tree
end TableIndex
