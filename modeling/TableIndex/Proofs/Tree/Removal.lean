import TableIndex.Proofs.Tree.Descent
import TableIndex.Proofs.Tree.Retrace

/-!
# Removals

Removing a live node takes its row out of the order and leaves all other rows where they were. A
node with at most one child leaves the tree itself; any other takes over the row of its successor,
whose slot becomes free in its place.
-/

namespace TableIndex.Tree

variable {α : Type}

private theorem setRow_split {t : Tree α} (path : Path α) (side : Side) {p q : Shape α} {s : Slot}
    {x : α} (h : t.HasShape (path.plug (.join side p s x q)))
    (hc : path.Counts (Shape.join side p s x q).height) (y : α) :
    ∃ t', t.edit (some s) (fun n => { n with row := y }) = .ok t' ∧
      t'.HasShape (path.plug (.join side p s y q)) := by
  have hsp := h.split hc
  have hbal := (Path.balanced_plug path _).mp h.balanced
  obtain ⟨hs, hp, hq⟩ := (Shape.stored_join ..).mp hsp.stored
  have hnd := (Shape.slots_join side p s x q).nodup_iff.mp (List.nodup_append.mp hsp.nodup).1
  simp only [List.nodup_cons, List.mem_append, not_or] at hnd
  have hpath : s ∉ path.slots := hsp.not_mem_path (Shape.link_mem (Shape.link_join ..))
  have hslots : (path.plug (.join side p s y q)).slots.Perm
      (path.plug (.join side p s x q)).slots := by
    refine (Path.slots_plug ..).trans (List.Perm.trans ?_ (Path.slots_plug ..).symm)
    exact ((Shape.slots_join ..).trans (Shape.slots_join ..).symm).append_right _
  let t' := t.put s (Node.facing side y p.link q.link path.link (p.height - q.height))
  have hstored : (Shape.join side p s y q).Stored t' path.link :=
    (Shape.stored_join ..).mpr ⟨nodeAt?_put_self hs _, hp.put hnd.1.1 _, hq.put hnd.1.2 _⟩
  have habove : path.Stored t' (Shape.join side p s y q).link := by
    have := hsp.above
    rw [Shape.link_join] at this ⊢
    exact this.put hpath _
  have hc' : path.Counts (Shape.join side p s y q).height := by
    rwa [Shape.height_join] at hc ⊢
  have hwhole := (Path.stored_plug t' hc').mpr ⟨hstored, habove⟩
  have hsame := sameSlots_put hs
    (Node.facing side y p.link q.link path.link (p.height - q.height))
  refine ⟨t', ?_, ?_⟩
  · rw [edit_of_nodeAt? _ hs, Node.facing_setRow]
  · constructor
    · exact hwhole.2
    · exact hwhole.1
    · exact hslots.nodup_iff.mpr h.nodup
    · intro u
      rw [hsame.contains, h.live_iff, hslots.mem_iff]
    · rw [Path.balanced_plug, Shape.balanced_join, Shape.height_join]
      rw [Shape.balanced_join, Shape.height_join] at hbal
      exact hbal
    · exact h.sound.congr hsame

private theorem lift_split [Inhabited α] {t : Tree α} {path : Path α} {side : Side} {c : Shape α}
    {s : Slot} {x : α} (hsp : t.Split path (.join side .nil s x c)) (hsound : t.nodes.Sound) :
    ∃ t₁ t₂ node nodes, t.setParent c.link path.link = .ok t₁ ∧
      t₁.relink path.link (some s) c.link = .ok t₂ ∧
      t₂.nodes.release (some s) = (some node, nodes) ∧ node.row = x ∧
      ({ t₂ with nodes } : Tree α).Split path c ∧ nodes.Sound ∧
      t₂.nodes.capacity = t.nodes.capacity ∧
      ∀ u, nodes.contains (some u) = true ↔ u ≠ s ∧ t.nodes.contains (some u) = true := by
  obtain ⟨hs, -, hcs⟩ := (Shape.stored_join ..).mp hsp.stored
  have hperm := Shape.slots_join side (.nil : Shape α) s x c
  have hnd := hperm.nodup_iff.mp (List.nodup_append.mp hsp.nodup).1
  simp only [Shape.slots_nil, List.nil_append, List.nodup_cons] at hnd hperm
  have hpath : s ∉ path.slots := hsp.not_mem_path (Shape.link_mem (Shape.link_join ..))
  have hcpath : ∀ u ∈ c.slots, u ∉ path.slots := fun u hu =>
    hsp.not_mem_path (hperm.mem_iff.mpr (by simp [hu]))
  obtain ⟨t₁, hset, hc₁, hroot₁, hsame₁, hother₁⟩ := setParent_stored hcs hnd.2 path.link
  have habove := hsp.above
  rw [Shape.link_join] at habove
  have habove₁ : path.Stored t₁ (some s) :=
    habove.congr hroot₁ fun u hu => hother₁ u fun hm => hcpath u hm hu
  obtain ⟨t₂, hrelink, habove₂, hsame₂, hother₂⟩ :=
    relink_stored habove₁ hsp.nodup_path hpath c.link
  have hs₂ : t₂.nodeAt? s = some _ := (hother₂ s hpath).trans ((hother₁ s hnd.1).trans hs)
  have hsame := hsame₁.trans hsame₂
  obtain ⟨nodes, hrelease, hfreed, hget, -, -, -⟩ :=
    Arena.release_of_get? (hsound.congr hsame) hs₂
  refine ⟨t₁, t₂, _, nodes, hset, hrelink, hrelease, Node.facing_row .., ⟨?_, ?_, ?_⟩, hfreed,
    hsame.capacity, fun u => ?_⟩
  · refine hc₁.congr fun u hu => ?_
    exact ((hget u).trans (if_neg (ne_of_mem_of_not_mem hu hnd.1))).trans
      (hother₂ u (hcpath u hu))
  · refine Path.Stored.congr habove₂ rfl fun u hu => ?_
    exact (hget u).trans (if_neg (ne_of_mem_of_not_mem hu hpath))
  · rw [List.nodup_append]
    exact ⟨hnd.2, hsp.nodup_path, fun u hu v hv e => hcpath u hu (e ▸ hv)⟩
  · rw [← hsame.contains u]
    by_cases hu : u = s
    · simp [Arena.contains, hget, hu]
    · simp [Arena.contains, hget, hu]

private theorem unlink_split [Inhabited α] {t : Tree α} {path : Path α} {side : Side} {c : Shape α}
    {s : Slot} {x : α} (h : t.HasShape (path.plug (.join side .nil s x c)))
    (hc : path.Counts (Shape.join side .nil s x c).height) :
    ∃ t' sh', t.unlink (some s) = .ok (some x, t') ∧ t'.HasShape sh' ∧
      sh'.listed .right = (path.plug c).listed .right := by
  have hsp := h.split hc
  have hbal := (Path.balanced_plug path _).mp h.balanced
  rw [Shape.height_join, Shape.height_nil, Nat.zero_max, Nat.add_comm 1 c.height] at hc hbal
  rw [Shape.balanced_join] at hbal
  obtain ⟨t₁, t₂, node, nodes, hset, hrelink, hrelease, hrow, hsp₃, hsound, hcap, hlive⟩ :=
    lift_split hsp h.sound
  have hreach : path.length ≤ t₂.retraceReach := by
    have hle := h.path_le_reach
    simp only [reach] at hle
    simp only [retraceReach, hcap]
    omega
  obtain ⟨t₄, sh', hrun, hsettled⟩ :=
    retraceShrinkage_settles hsp₃ hbal.1.2.2 hc hbal.2 hreach
  refine ⟨t₄, sh', ?_, hsettled.hasShape (fun u => ?_) hsound, hsettled.listed⟩
  · have hnode := node_of_nodeAt? ((Shape.stored_join ..).mp hsp.stored).1
    simp only [Shape.link_nil, Shape.height_nil, Nat.cast_zero] at hnode
    have hchild : (if (Node.facing side x none c.link path.link (0 - c.height)).left.isSome then
        (Node.facing side x none c.link path.link (0 - c.height)).left
        else (Node.facing side x none c.link path.link (0 - c.height)).right) = c.link := by
      cases side
      · rfl
      · cases hlink : c.link <;> rfl
    simp only [unlink, hnode, ok_bind, hchild, Node.facing_parent]
    cases path with
    | top =>
        rw [Path.link_top] at hset hrelink
        simp only [Path.link_top, pure_eq_ok, ok_bind, hset, hrelink, hrelease]
        simp only [Path.link_top, Path.side] at hrun
        rw [hrun]
        simp [hrow]
    | step d u y tilt sibling up =>
        obtain ⟨hu, hd⟩ := hsp.node_above (Shape.link_join ..) rfl
        rw [Path.link_step] at hset hrelink
        simp only [Path.link_step, node_of_nodeAt? hu, ok_bind, hd, pure_eq_ok, hset, hrelink,
          hrelease]
        simp only [Path.link_step, Path.side] at hrun
        rw [hrun]
        simp [hrow]
  · have hslots := hsp.nodup
    have hperm := Shape.slots_join side (.nil : Shape α) s x c
    rw [(hperm.append_right _).nodup_iff] at hslots
    simp only [Shape.slots_nil, List.nil_append, List.cons_append, List.nodup_cons,
      List.mem_append, not_or] at hslots
    rw [(Path.slots_plug ..).mem_iff, List.mem_append, hlive, h.live_iff,
      (Path.slots_plug ..).mem_iff, List.mem_append, hperm.mem_iff]
    by_cases hu : u = s
    · simp [hu, hslots.1]
    · simp [hu]

private theorem remove_outer [Inhabited α] {t : Tree α} {path : Path α} (side : Side) {c : Shape α}
    {s : Slot} {x : α} (h : t.HasShape (path.plug (.join side .nil s x c)))
    (hc : path.Counts (Shape.join side .nil s x c).height) :
    ∃ t' sh', t.remove (some s) = .ok (some x, t') ∧ t'.HasShape sh' ∧
      sh'.listed .right = (path.plug c).listed .right := by
  obtain ⟨t', sh', hrun, hshape, hlist⟩ := unlink_split h hc
  have hs := ((Shape.stored_join ..).mp (h.split hc).stored).1
  refine ⟨t', sh', ?_, hshape, hlist⟩
  have hopen : ((Node.facing side x (Shape.nil : Shape α).link c.link path.link
      (((Shape.nil : Shape α).height : Int) - c.height)).left.isNone ||
      (Node.facing side x (Shape.nil : Shape α).link c.link path.link
      (((Shape.nil : Shape α).height : Int) - c.height)).right.isNone) = true := by
    cases side <;> simp [Node.facing]
  have hlive : t.nodes.contains (some s) = true := Arena.contains_of_get? hs
  simp only [remove, hlive, isolate, node_of_nodeAt? hs, ok_bind, hopen, if_true, pure_eq_ok,
    Bool.not_true, Bool.false_eq_true, if_false, hrun]

private theorem remove_inner [Inhabited α] {t : Tree α} {path : Path α} {l r : Shape α} {s : Slot}
    {x : α} (hl : l ≠ .nil) (hr : r ≠ .nil) (h : t.HasShape (path.plug (.node l s x r)))
    (hc : path.Counts (Shape.node l s x r).height) :
    ∃ t' sh' u y rest, t.remove (some s) = .ok (some x, t') ∧ t'.HasShape sh' ∧
      r.listed .right = (u, y) :: rest ∧
      sh'.listed .right = (path.beyond .left).reverse ++
        (l.listed .right ++ (s, y) :: rest ++ path.beyond .right) := by
  obtain ⟨hs, -, hrs⟩ := (h.split hc).stored
  obtain ⟨v, hv⟩ : ∃ v, r.link = some v := Option.ne_none_iff_exists'.mp fun e =>
    hr (Shape.link_eq_none.mp e)
  have hreach : r.height ≤ t.reach := by
    have hle := h.length_le_reach
    have hperm : (Shape.node l s x r).slots.Perm _ := Shape.slots_join .left l s x r
    rw [((Path.slots_plug ..).trans (hperm.append_right _)).length_eq] at hle
    have := r.height_le_length
    simp only [List.length_append, List.length_cons] at hle
    omega
  obtain ⟨inner, u, y, c, hdescend, rfl, hci, hend⟩ := descendTo_stored .left hrs hv hreach
  have hnode : (inner.plug (.join .left .nil u y c)).listed .right =
      (u, y) :: (c.listed .right ++ inner.beyond .right) := by
    rw [Path.listed_plug, show Side.right.other = .left from rfl, hend]
    rfl
  -- the same two positions, with any row in the node, and with any row in its successor
  let below (row : α) : Path α := inner.append
    (.step .right s row ((inner.plug (.join .left .nil u y c)).height - l.height) l path)
  have hbelow : ∀ row sh, (below row).plug sh = path.plug (.node l s row (inner.plug sh)) :=
    fun row sh => Path.plug_append inner _ sh
  have hcs : ∀ row, path.Counts (Shape.join .right (inner.plug (.join .left .nil u y c)) s row
      l).height := by
    intro row
    rw [show Shape.node l s x _ = Shape.join .right _ s x l from rfl, Shape.height_join] at hc
    rwa [Shape.height_join]
  have hcu : ∀ row z, (below row).Counts (Shape.join .left .nil u z c).height := by
    intro row z
    rw [Shape.height_join, ← Shape.height_join .left .nil u y c]
    have hup := hcs row
    rw [Shape.height_join] at hup
    exact Path.counts_append.mpr ⟨hci, rfl, hup⟩
  have hu := ((Shape.stored_join ..).mp (((hbelow x _).symm ▸ h).split (hcu x y)).stored).1
  -- the rows change places
  obtain ⟨t₁, hedit₁, h₁⟩ := setRow_split path .right h (hcs x) y
  obtain ⟨t₂, hedit₂, h₂⟩ := setRow_split (below y) .left ((hbelow y _).symm ▸ h₁) (hcu y y) x
  obtain ⟨t₃, sh', hrun, h₃, hlist⟩ := unlink_split h₂ (hcu y x)
  refine ⟨t₃, sh', u, y, _, ?_, h₃, hnode, ?_⟩
  · have hlive : t.nodes.contains (some s) = true := Arena.contains_of_get? hs
    obtain ⟨w, hw⟩ : ∃ w, l.link = some w := Option.ne_none_iff_exists'.mp fun e =>
      hl (Shape.link_eq_none.mp e)
    simp only [remove, hlive, isolate, node_of_nodeAt? hs, ok_bind, hv, hw, extreme, hdescend,
      swapRows, row_of_nodeAt? hs, row_of_nodeAt? hu, hedit₁, hedit₂, Node.facing_row, pure_eq_ok,
      Option.isNone_some, Bool.or_self, Bool.false_eq_true, Bool.not_true, if_false, hrun]
  · rw [hlist, hbelow, Path.listed_plug]
    simp only [Shape.listed, Path.listed_plug, show Side.right.other = .left from rfl, hend,
      List.reverse_nil, List.nil_append, List.append_assoc, List.cons_append]

/-- Removing a live node takes its row out of the order. Its slot becomes free, or, if it has two
children, holds the next row in order, whose slot becomes free instead. -/
theorem remove_listed [Inhabited α] {t : Tree α} {sh : Shape α} {s : Slot} {x : α}
    {before after : List (Slot × α)} (h : t.HasShape sh)
    (hlist : sh.listed .right = before ++ (s, x) :: after) :
    ∃ node t' sh', t.node (some s) = .ok node ∧ t.remove (some s) = .ok (some x, t') ∧
      t'.HasShape sh' ∧
      ((node.left = none ∨ node.right = none) ∧ sh'.listed .right = before ++ after ∨
        (node.left ≠ none ∧ node.right ≠ none) ∧
          ∃ u y rest, after = (u, y) :: rest ∧ sh'.listed .right = before ++ (s, y) :: rest) := by
  obtain ⟨path, r, l, rfl, hc, rfl, rfl⟩ := Shape.exists_path_of_listed h.nodup hlist
  have hnode := node_of_nodeAt? ((Shape.stored_join ..).mp (h.split hc).stored).1
  by_cases hl : l = .nil
  · subst l
    obtain ⟨t', sh', hrun, h', hlist'⟩ := remove_outer .left (c := r) h hc
    refine ⟨_, t', sh', hnode, hrun, h', .inl ⟨.inl rfl, ?_⟩⟩
    rw [hlist', Path.listed_plug]
    simp
  by_cases hr : r = .nil
  · subst r
    obtain ⟨t', sh', hrun, h', hlist'⟩ := remove_outer .right (c := l) h hc
    refine ⟨_, t', sh', hnode, hrun, h', .inl ⟨.inr rfl, ?_⟩⟩
    rw [hlist', Path.listed_plug]
    simp
  obtain ⟨t', sh', u, y, rest, hrun, h', hfirst, hlist'⟩ := remove_inner hl hr h hc
  refine ⟨_, t', sh', hnode, hrun, h', .inr ⟨⟨?_, ?_⟩, u, y, rest ++ path.beyond .right, ?_, ?_⟩⟩
  · exact fun e => hl (Shape.link_eq_none.mp e)
  · exact fun e => hr (Shape.link_eq_none.mp e)
  · rw [hfirst, List.cons_append]
  · rw [hlist']
    simp [Side.other]

theorem remove_free [Inhabited α] {t : Tree α} {l : Link} (h : t.nodes.contains l = false) :
    t.remove l = .ok (none, t) := by
  simp [remove, h]

end TableIndex.Tree
