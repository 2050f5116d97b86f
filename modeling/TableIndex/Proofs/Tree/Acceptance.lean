import TableIndex.Proofs.Tree.Ancestry
import TableIndex.Proofs.Tree.Verification

/-!
# What a check accepts

A check accepts a tree exactly if its links form a balanced shape of all live nodes whose rows are
in order, whatever the links are. The descent alone does not show this, for it also accepts a node
that is both children of another. But no walk ends at a parent with such a child, so the walk in
order misses a node then, and the count shows it.
-/

namespace TableIndex.Tree

variable {α : Type} {t : Tree α}

private theorem checkBalance_eq_ok {s : Slot} {stored : Int} {left right height : Nat}
    (h : checkBalance s stored left right = .ok height) :
    (left ≤ right + 1 ∧ right ≤ left + 1) ∧ stored = left - right ∧
      height = 1 + max left right := by
  unfold checkBalance at h
  dsimp only at h
  split at h
  · cases h
  · split at h
    · cases h
    · next hslope hstored =>
        cases h
        exact ⟨by omega, (not_not.mp hstored).symm, rfl⟩

/-- Links that pass the check hold a balanced shape of the height that is found, though not
necessarily in different slots. -/
theorem exists_shape_of_checkLinks {depth : Nat} {l parent : Link} {height : Nat}
    (h : t.checkLinks depth l parent = .ok height) :
    ∃ sh : Shape α, sh.link = l ∧ sh.Stored t parent ∧ sh.Balanced ∧ sh.height = height := by
  induction depth generalizing l parent height with
  | zero =>
      cases l with
      | none =>
          rw [checkLinks] at h
          cases h
          exact ⟨.nil, rfl, trivial, trivial, rfl⟩
      | some s =>
          unfold checkLinks at h
          split at h
          · cases h
          · cases h
          · next hdepth => cases hdepth
  | succ depth ih =>
      cases l with
      | none =>
          rw [checkLinks] at h
          cases h
          exact ⟨.nil, rfl, trivial, trivial, rfl⟩
      | some s =>
          unfold checkLinks at h
          cases hnode : t.nodes.get? (some s) with
          | none => simp [hnode] at h
          | some n =>
              simp only [hnode] at h
              split at h
              · cases h
              · next hparent =>
                  obtain ⟨left, hleft, h⟩ := bind_eq_ok.mp h
                  obtain ⟨right, hright, h⟩ := bind_eq_ok.mp h
                  obtain ⟨l, hl, hstoredl, hball, rfl⟩ := ih hleft
                  obtain ⟨r, hr, hstoredr, hbalr, rfl⟩ := ih hright
                  obtain ⟨hslope, hbalance, rfl⟩ := checkBalance_eq_ok h
                  refine ⟨.node l s n.row r, rfl, ⟨?_, hstoredl, hstoredr⟩, ⟨hslope, hball, hbalr⟩,
                    rfl⟩
                  rw [nodeAt?, hnode, hl, hr, ← not_not.mp hparent, ← hbalance]

private theorem child_of_descendTo {side : Side} {fuel : Nat} {l l' : Link}
    (h : t.descendTo side fuel l = .ok l') : ∃ n, t.node l' = .ok n ∧ n.child side = none := by
  induction fuel generalizing l with
  | zero => cases h
  | succ fuel ih =>
      obtain ⟨n, hn, h⟩ := bind_eq_ok.mp h
      split at h
      · next hchild =>
          cases h
          exact ⟨n, hn, hchild⟩
      · exact ih h

private theorem exists_extreme {sh : Shape α} {parent : Link} {r : Slot} (side : Side)
    (h : sh.Stored t parent) (hr : sh.link = some r) (hfuel : sh.height ≤ t.reach) :
    ∃ u ∈ sh.slots, t.extreme side (some r) = .ok (some u) ∧ t.Forks u := by
  obtain ⟨path, u, x, q, hrun, rfl, -, -⟩ := descendTo_stored side h hr hfuel
  have hu : u ∈ (path.plug (.join side .nil u x q)).slots := by
    rw [(Path.slots_plug ..).mem_iff]
    exact List.mem_append_left _ (Shape.link_mem (Shape.link_join ..))
  obtain ⟨n, hn⟩ := h.live hu
  obtain ⟨n', hn', hchild⟩ := child_of_descendTo hrun
  rw [node_of_nodeAt? hn] at hn'
  cases hn'
  refine ⟨u, hu, hrun, n, hn, fun hsame => ?_⟩
  cases side with
  | left => exact hchild
  | right => exact hsame.trans hchild

private theorem exists_climb {path : Path α} {r : Slot} {fuel : Nat} (side : Side)
    (h : path.Stored t (some r)) (hfuel : path.length ≤ fuel) :
    ∃ l, t.climb side fuel (some r) path.link = .ok l ∧
      ∀ u, l = some u → u ∈ path.slots ∧ t.Forks u := by
  induction path generalizing r fuel with
  | top => exact ⟨none, by rw [Path.link_top, climb], by simp⟩
  | step d s x tilt sibling up ih =>
      obtain ⟨fuel, rfl⟩ : ∃ f, fuel = f + 1 := ⟨fuel - 1, by simp [Path.length] at hfuel; omega⟩
      obtain ⟨hs, -, hup⟩ := h
      have hchild := Node.facing_child d x (some r) sibling.link up.link tilt
      rw [Path.link_step, climb, node_of_nodeAt? hs, ok_bind]
      by_cases hside : (Node.facing d x (some r) sibling.link up.link tilt).child side = some r
      · rw [Path.length] at hfuel
        obtain ⟨l, hrun, hl⟩ := ih hup (show up.length ≤ fuel by omega)
        refine ⟨l, by rw [if_pos hside, Node.facing_parent, hrun], fun u hu => ?_⟩
        obtain ⟨hmem, hfork⟩ := hl u hu
        exact ⟨by simp [Path.slots, hmem], hfork⟩
      · refine ⟨some s, by rw [if_neg hside]; rfl, ?_⟩
        rintro _ ⟨⟩
        refine ⟨by simp [Path.slots], _, hs, fun hsame => ?_⟩
        -- the child on `d` is the one that the walk comes from, so the other one is different
        refine absurd ?_ hside
        rw [← hchild]
        cases d with
        | left =>
            cases side with
            | left => rfl
            | right => exact hsame.symm
        | right =>
            cases side with
            | left => exact hsame
            | right => rfl

private theorem exists_next {sh : Shape α} (h : sh.Stored t none) (hroot : t.root = sh.link)
    (hsound : t.nodes.Sound) {s : Slot} (hs : s ∈ sh.slots) :
    ∃ l, t.next (some s) = .ok l ∧ ∀ u, l = some u → u ∈ sh.slots ∧ t.Forks u := by
  obtain ⟨path, l, x, r, rfl, hc⟩ := sh.exists_path hs
  obtain ⟨⟨hnode, hl, hr⟩, habove⟩ := (Path.stored_plug t hc).mp ⟨h, hroot⟩
  obtain ⟨up, hup, hlength⟩ := habove.exists_trail
  have hreach : t.size ≤ t.reach := Arena.size_le_capacity hsound
  have hslots : ∀ u, u ∈ r.slots ∨ u ∈ path.slots → u ∈ (path.plug (.node l s x r)).slots := by
    intro u hu
    have hperm : (Shape.node l s x r).slots.Perm (s :: (l.slots ++ r.slots)) :=
      Shape.slots_join .left l s x r
    rw [(Path.slots_plug ..).mem_iff, List.mem_append, hperm.mem_iff]
    simp only [List.mem_cons, List.mem_append]
    tauto
  rw [next, neighbor, node_of_nodeAt? hnode, ok_bind]
  cases hlink : r.link with
  | none =>
      have hpath := length_le_of_trail hsound hup
      obtain ⟨l', hrun, hl'⟩ := exists_climb .right habove (show path.length ≤ t.reach by omega)
      refine ⟨l', hrun, fun u hu => ?_⟩
      obtain ⟨hmem, hfork⟩ := hl' u hu
      exact ⟨hslots u (.inr hmem), hfork⟩
  | some v =>
      have hback : Trail t.NamesParent (some s) (s :: up) := ⟨rfl, _, ⟨_, hnode, rfl⟩, hup⟩
      have hheight := hr.height_le_size hsound hback
      obtain ⟨u, hmem, hrun, hfork⟩ := exists_extreme .left hr hlink (hheight.trans hreach)
      refine ⟨some u, hrun, ?_⟩
      rintro _ ⟨⟩
      exact ⟨hslots u (.inl hmem), hfork⟩

private theorem exists_first {sh : Shape α} (h : sh.Stored t none) (hroot : t.root = sh.link)
    (hsound : t.nodes.Sound) :
    ∃ l, t.first = .ok l ∧ ∀ u, l = some u → u ∈ sh.slots ∧ t.Forks u := by
  rw [first, endmost, hroot]
  cases hlink : sh.link with
  | none => exact ⟨none, rfl, by simp⟩
  | some r =>
      have htop : Trail t.NamesParent none [] := rfl
      have hheight := h.height_le_size hsound htop
      have hreach : t.size ≤ t.reach := Arena.size_le_capacity hsound
      obtain ⟨u, hmem, hrun, hfork⟩ := exists_extreme .left h hlink (hheight.trans hreach)
      refine ⟨some u, hrun, ?_⟩
      rintro _ ⟨⟩
      exact ⟨hmem, hfork⟩

/-- Where every step of the walk succeeds, the check of the rows finds damage or has walked over
rows in order, one for each unit of the budget that it has used. -/
theorem checkOrder_cases (order : α → α → Ordering) [Std.TransCmp order] {P : Slot → Prop}
    (hstep : ∀ s, P s → ∃ x l, t.row (some s) = .ok x ∧ t.next (some s) = .ok l ∧
      ∀ u, l = some u → P u)
    (budget : Nat) (before : Option (Slot × α)) {l : Link} (hl : ∀ s, l = some s → P s) :
    (∃ damage, t.checkOrder order budget before l = .ok (.error damage)) ∨
      ∃ left nodes, t.checkOrder order budget before l = .ok (.ok left) ∧ t.Visits l nodes ∧
        nodes.length + left = budget ∧ (∀ e ∈ nodes, P e.1) ∧
        nodes.Pairwise (fun a b => order a.2 b.2 ≠ .gt) ∧
        ∀ b, before = some b → ∀ e ∈ nodes, order b.2 e.2 ≠ .gt := by
  induction budget generalizing before l with
  | zero =>
      cases l with
      | none => exact .inr ⟨0, [], by rw [checkOrder], ⟨rfl, by simp⟩, by simp⟩
      | some s => exact .inl ⟨.endlessWalk, by rw [checkOrder]⟩
  | succ budget ih =>
      cases l with
      | none => exact .inr ⟨budget + 1, [], by rw [checkOrder], ⟨rfl, by simp⟩, by simp⟩
      | some s =>
          obtain ⟨x, l, hrow, hnext, hsafe⟩ := hstep s (hl s rfl)
          cases hbefore : before.filter fun b => order b.2 x == .gt with
          | some b => exact .inl ⟨.outOfOrder b.1 s, by simp [checkOrder, hrow, hbefore]⟩
          | none =>
              have hrun : t.checkOrder order (budget + 1) before (some s) =
                  t.checkOrder order budget (some (s, x)) l := by
                simp only [checkOrder, hrow, ok_bind, hbefore, hnext]
              rw [hrun]
              refine (ih (some (s, x)) hsafe).imp id ?_
              rintro ⟨left, nodes, hrest, hvisits, hlength, hmem, hsorted, hafter⟩
              have hfirst := hafter (s, x) rfl
              refine ⟨left, (s, x) :: nodes, hrest, .cons (e := (s, x)) hrow hnext hvisits,
                ?_, ?_, ?_, ?_⟩
              · rw [List.length_cons]
                omega
              · exact List.forall_mem_cons.mpr ⟨hl s rfl, hmem⟩
              · exact List.pairwise_cons.mpr ⟨hfirst, hsorted⟩
              · rintro b rfl
                have hle : order b.2 x ≠ .gt := by simpa [Option.filter] using hbefore
                refine List.forall_mem_cons.mpr ⟨hle, fun e he => ?_⟩
                refine Ordering.isLE_iff_ne_gt.mp ?_
                exact Std.TransCmp.isLE_trans (Ordering.isLE_iff_ne_gt.mpr hle)
                  (Ordering.isLE_iff_ne_gt.mpr (hfirst e he))

/-- A walk that comes to as many nodes as there are, none of them with a twofold child, shows that
the shape has no node twice and leaves out none. -/
theorem hasShape_of_visits {sh : Shape α} (h : sh.Stored t none) (hroot : t.root = sh.link)
    (hbalanced : sh.Balanced) (hsound : t.nodes.Sound) {l : Link} {nodes : List (Slot × α)}
    (hvisits : t.Visits l nodes) (hlength : nodes.length = t.size)
    (hmem : ∀ e ∈ nodes, e.1 ∈ sh.slots ∧ t.Forks e.1) : t.HasShape sh := by
  have hlive : ∀ s ∈ sh.slots, t.nodes.contains (some s) = true := by
    intro s hs
    obtain ⟨n, hn⟩ := h.live hs
    exact Arena.contains_of_get? hn
  have hall : ∀ s, t.nodes.contains (some s) = true → s ∈ sh.slots ∧ t.Forks s := by
    intro s hs
    have hvisited : s ∈ nodes.map Prod.fst := by
      refine Arena.mem_of_length_eq hsound hvisits.nodup (fun u hu => ?_) ?_ hs
      · obtain ⟨e, he, rfl⟩ := List.mem_map.mp hu
        exact hlive e.1 (hmem e he).1
      · rw [List.length_map, hlength, size]
    obtain ⟨e, he, rfl⟩ := List.mem_map.mp hvisited
    exact hmem e he
  have htop : Trail t.NamesParent none [] := rfl
  constructor
  · exact hroot
  · exact h
  · exact h.nodup_of_forks htop fun s hs => (hall s (hlive s hs)).2
  · exact fun s => ⟨fun hs => (hall s hs).1, hlive s⟩
  · exact hbalanced
  · exact hsound

/-- The same tree in a tidy arena. No walk looks at the free list, nor does a check. -/
def tidy (t : Tree α) : Tree α := { t with nodes := t.nodes.tidy }

theorem node_tidy (t : Tree α) (l : Link) : t.tidy.node l = t.node l := rfl

private theorem extreme_tidy (t : Tree α) (side : Side) (l : Link) :
    t.tidy.extreme side l = t.extreme side l := by
  have hdescend : ∀ fuel l, t.tidy.descendTo side fuel l = t.descendTo side fuel l := by
    intro fuel
    induction fuel with
    | zero => exact fun _ => rfl
    | succ fuel ih => simp only [descendTo, node_tidy, ih, implies_true]
  exact hdescend t.reach l

private theorem climb_tidy (t : Tree α) (side : Side) (fuel : Nat) (child l : Link) :
    t.tidy.climb side fuel child l = t.climb side fuel child l := by
  induction fuel generalizing child l with
  | zero => cases l <;> rfl
  | succ fuel ih => cases l <;> simp only [climb, node_tidy, ih]

private theorem next_tidy (t : Tree α) (l : Link) : t.tidy.next l = t.next l := by
  simp only [next, neighbor, node_tidy, extreme_tidy, climb_tidy]
  rfl

private theorem first_tidy (t : Tree α) : t.tidy.first = t.first := by
  simp only [first, endmost, extreme_tidy]
  rfl

private theorem checkLinks_tidy (t : Tree α) (depth : Nat) (l parent : Link) :
    t.tidy.checkLinks depth l parent = t.checkLinks depth l parent := by
  have hget : ∀ l, t.tidy.nodes.get? l = t.nodes.get? l := fun _ => rfl
  induction depth generalizing l parent with
  | zero =>
      cases l with
      | none => rw [checkLinks, checkLinks]
      | some s =>
          unfold checkLinks
          rw [hget]
          cases t.nodes.get? (some s) <;> rfl
  | succ depth ih =>
      cases l with
      | none => rw [checkLinks, checkLinks]
      | some s =>
          unfold checkLinks
          rw [hget]
          cases t.nodes.get? (some s) with
          | none => rfl
          | some n => simp only [ih]

private theorem checkOrder_tidy (t : Tree α) (order : α → α → Ordering) (budget : Nat)
    (before : Option (Slot × α)) (l : Link) :
    t.tidy.checkOrder order budget before l = t.checkOrder order budget before l := by
  induction budget generalizing before l with
  | zero => cases l <;> rfl
  | succ budget ih =>
      cases l with
      | none => rfl
      | some s => simp only [checkOrder, row, node_tidy, next_tidy, ih]

private theorem verify_tidy (t : Tree α) (order : α → α → Ordering) :
    t.tidy.verify order = t.verify order := by
  simp only [verify, checkRows, first_tidy, checkOrder_tidy, checkLinks_tidy]
  rfl

private theorem verify_cases (order : α → α → Ordering) [Std.TransCmp order]
    (hsound : t.nodes.Sound) (hroot : ∃ b, t.rootHasParent = .ok b) :
    (∃ e, t.verify order = .ok (.error e)) ∨
      ∃ sh, t.HasShape sh ∧ (sh.listed .right).Pairwise fun a b => order a.2 b.2 ≠ .gt := by
  obtain ⟨b, hparent⟩ := hroot
  rw [verify, hparent, ok_bind]
  cases b with
  | true => exact .inl ⟨_, rfl⟩
  | false =>
      cases hlinks : t.checkLinks (t.size + 1) t.root none with
      | error damage => exact .inl ⟨.damaged damage, rfl⟩
      | ok height =>
          obtain ⟨sh, hlink, hstored, hbalanced, rfl⟩ := exists_shape_of_checkLinks hlinks
          obtain ⟨l, hfirst, hl⟩ := exists_first hstored hlink.symm hsound
          have hstep : ∀ s, s ∈ sh.slots ∧ t.Forks s → ∃ x l, t.row (some s) = .ok x ∧
              t.next (some s) = .ok l ∧ ∀ u, l = some u → u ∈ sh.slots ∧ t.Forks u := by
            rintro s ⟨hs, n, hn, -⟩
            obtain ⟨l, hnext, hl⟩ := exists_next hstored hlink.symm hsound hs
            exact ⟨n.row, l, row_of_nodeAt? hn, hnext, hl⟩
          rcases checkOrder_cases order hstep t.size none hl with
            ⟨damage, hrows⟩ | ⟨left, nodes, hrows, hvisits, hlength, hmem, hsorted, -⟩
          · exact .inl ⟨.damaged damage, by simp [checkRows, hfirst, hrows]⟩
          · cases left with
            | succ left => exact .inl ⟨_, by simp [checkRows, hfirst, hrows]; rfl⟩
            | zero =>
                right
                have h :=
                  hasShape_of_visits hstored hlink.symm hbalanced hsound hvisits hlength hmem
                have hfirst' : t.first = .ok ((sh.listed .right).head?.map Prod.fst) :=
                  endmost_listed h .right
                obtain rfl := Except.ok.inj (hfirst.symm.trans hfirst')
                have hlisted := h.visits (List.nil_append (sh.listed .right)).symm
                exact ⟨sh, h, hvisits.eq_of_visits hlisted ▸ hsorted⟩

/-- The links form the shape: it holds every live node once, with the right parents and balances. -/
structure Forms (t : Tree α) (sh : Shape α) : Prop where
  root_eq : t.root = sh.link
  stored : sh.Stored t none
  nodup : sh.slots.Nodup
  live_iff : ∀ s, t.nodes.contains (some s) = true ↔ s ∈ sh.slots
  balanced : sh.Balanced

private theorem hasShape_tidy_iff {sh : Shape α} (hcounted : t.nodes.Counted) :
    t.tidy.HasShape sh ↔ t.Forms sh := by
  constructor
  · intro h
    exact ⟨h.root_eq, h.stored.congr fun _ _ => rfl, h.nodup, h.live_iff, h.balanced⟩
  · intro h
    exact ⟨h.root_eq, h.stored.congr fun _ _ => rfl, h.nodup, h.live_iff, h.balanced,
      Arena.tidy_sound hcounted⟩

private theorem exists_rootHasParent (hroot : ∀ r, t.root = some r → r < t.nodes.capacity ∧
      (t.nodes.guarded = true → t.nodes.contains (some r) = true)) :
    ∃ b, t.rootHasParent = .ok b := by
  unfold rootHasParent
  cases hr : t.root with
  | none => exact ⟨false, rfl⟩
  | some r =>
      obtain ⟨hlt, hguard⟩ := hroot r hr
      obtain ⟨n, hn⟩ := Arena.exists_fetch hlt hguard
      exact ⟨n.parent.isSome, by simp [node, hn]⟩

/-- Whatever links the nodes have, the check ends without a fault. It accepts the tree exactly if
the links form a balanced shape of all live nodes and the rows are in order, and then it gives the
number of nodes and the height of the shape. -/
theorem verify_ok_iff (order : α → α → Ordering) [Std.TransCmp order]
    (hcounted : t.nodes.Counted)
    (hroot : ∀ r, t.root = some r → r < t.nodes.capacity ∧
      (t.nodes.guarded = true → t.nodes.contains (some r) = true)) :
    ∃ answer, t.verify order = .ok answer ∧ ∀ found, answer = .ok found ↔
      ∃ sh, t.Forms sh ∧ (sh.listed .right).Pairwise (fun a b => order a.2 b.2 ≠ .gt) ∧
        found = ⟨sh.slots.length, sh.height⟩ := by
  have haccepts : ∀ sh, t.Forms sh →
      (sh.listed .right).Pairwise (fun a b => order a.2 b.2 ≠ .gt) →
      t.verify order = .ok (.ok ⟨sh.slots.length, sh.height⟩) := by
    intro sh h hsorted
    have h' := (hasShape_tidy_iff hcounted).mpr h
    rw [← verify_tidy, h'.verify hsorted, h'.length_slots]
  have hroot' : ∃ b, t.tidy.rootHasParent = .ok b := exists_rootHasParent hroot
  rcases verify_cases order (Arena.tidy_sound hcounted) hroot' with ⟨e, hrun⟩ | ⟨sh, h, hsorted⟩
  · rw [verify_tidy] at hrun
    refine ⟨.error e, hrun, fun found => iff_of_false (by simp) ?_⟩
    rintro ⟨sh, h, hsorted, -⟩
    rw [haccepts sh h hsorted] at hrun
    cases hrun
  · have hforms := (hasShape_tidy_iff hcounted).mp h
    refine ⟨_, haccepts sh hforms hsorted, fun found => ?_⟩
    constructor
    · rintro ⟨⟩
      exact ⟨sh, hforms, hsorted, rfl⟩
    · rintro ⟨sh', h', -, rfl⟩
      rw [h.unique ((hasShape_tidy_iff hcounted).mpr h')]

/-- A root with one node as both children passes the descent, but the walk in order comes to one
node of two. With a child for each side the tree is accepted. -/
theorem verify_ok_iff_shared_child :
    (∃ t : Tree Nat, t.nodes.Counted ∧ t.checkLinks (t.size + 1) t.root none = .ok 2 ∧
      t.verify compare = .ok (.error (.damaged (.unreachableNodes 2 1))) ∧
      ¬ ∃ sh, t.Forms sh ∧ (sh.listed .right).Pairwise fun a b => compare a.2 b.2 ≠ .gt) ∧
    ∃ (t : Tree Nat) (sh : Shape Nat), t.nodes.Counted ∧ t.verify compare = .ok (.ok ⟨3, 2⟩) ∧
      t.Forms sh ∧ ((sh.listed .right).Pairwise fun a b => compare a.2 b.2 ≠ .gt) ∧
      sh.slots.length = 3 ∧ sh.height = 2 := by
  constructor
  · let t : Tree Nat :=
      { nodes :=
          { cells := #[⟨⟨2, some 1, some 1, none, 0⟩, true⟩, ⟨⟨1, none, none, some 0, 0⟩, true⟩]
            freed := [], frontier := 2, size := 2, guarded := false }
        root := some 0 }
    have hcounted : t.nodes.Counted := rfl
    have hrefused : t.verify compare = .ok (.error (.damaged (.unreachableNodes 2 1))) := rfl
    obtain ⟨answer, hrun, hiff⟩ := verify_ok_iff (t := t) compare hcounted (by
      rintro _ ⟨⟩
      exact ⟨by decide, by simp [t]⟩)
    refine ⟨t, hcounted, rfl, hrefused, ?_⟩
    rintro ⟨sh, hforms, hsorted⟩
    have hanswer := (hiff _).mpr ⟨sh, hforms, hsorted, rfl⟩
    rw [hanswer, hrefused] at hrun
    cases hrun
  · let t : Tree Nat :=
      { nodes :=
          { cells := #[⟨⟨2, some 1, some 2, none, 0⟩, true⟩, ⟨⟨1, none, none, some 0, 0⟩, true⟩,
              ⟨⟨3, none, none, some 0, 0⟩, true⟩]
            freed := [], frontier := 3, size := 3, guarded := false }
        root := some 0 }
    have hcounted : t.nodes.Counted := rfl
    have haccepted : t.verify compare = .ok (.ok ⟨3, 2⟩) := rfl
    obtain ⟨answer, hrun, hiff⟩ := verify_ok_iff (t := t) compare hcounted (by
      rintro _ ⟨⟩
      exact ⟨by decide, by simp [t]⟩)
    obtain rfl := Except.ok.inj (haccepted.symm.trans hrun)
    obtain ⟨sh, hforms, hsorted, hfound⟩ := (hiff ⟨3, 2⟩).mp rfl
    simp only [TreeShape.mk.injEq] at hfound
    exact ⟨t, sh, hcounted, haccepted, hforms, hsorted, hfound.1.symm, hfound.2.symm⟩

end TableIndex.Tree
