import TableIndex.Proofs.Tree.Descent
import TableIndex.Proofs.Tree.Retrace

/-!
# Insertions

A tree refuses a new row only when all its slots are taken and it gets no more, because there can be
no more or their space is refused; then nothing has changed. Otherwise the row stands in a new slot
at its gap, and the tree holds a shape again.
-/

namespace TableIndex.Tree

variable {α : Type}

private theorem HasShape.congr {t t' : Tree α} {sh : Shape α} (h : t.HasShape sh)
    (hroot : t'.root = t.root) (hsound : t'.nodes.Sound)
    (hsame : ∀ l, t'.nodes.get? l = t.nodes.get? l) : t'.HasShape sh where
  root_eq := hroot.trans h.root_eq
  stored := h.stored.congr fun s _ => hsame (some s)
  nodup := h.nodup
  live_iff := by
    intro s
    rw [Arena.contains_congr (hsame (some s))]
    exact h.live_iff s
  balanced := h.balanced
  sound := hsound

/-- The capacity to which a tree grows. -/
def grown (t : Tree α) : Nat := max minNodes (min (2 * t.nodes.capacity) maxSlots)

/-- All slots are taken and there will be no more, with the numbers that the error names. -/
inductive Full (t : Tree α) (grants : Allocator) : Nat → Nat → Prop
  | most (taken : maxSlots ≤ t.size) : Full t grants (t.nodes.capacity + 1) maxSlots
  | refused {r : Reservation} (taken : t.size = t.nodes.capacity)
      (below : t.nodes.capacity < maxSlots) (asked : r ∈ Arena.space nodeWidth t.grown)
      (refused : grants r = false) : Full t grants t.grown t.nodes.capacity

private theorem grown_le (t : Tree α) : t.grown ≤ maxSlots := by
  have hmin : minNodes ≤ maxSlots := by decide
  unfold grown
  omega

private theorem lt_grown {t : Tree α} (hbelow : t.nodes.capacity < maxSlots) :
    t.nodes.capacity < t.grown := by
  have hpos : 0 < minNodes := by decide
  unfold grown
  omega

/-- The space of a tree can always be addressed. -/
theorem Full.maxSlots_le {t : Tree α} {requested limit : Nat}
    (h : t.Full .addressable requested limit) : maxSlots ≤ t.size := by
  cases h with
  | most taken => exact taken
  | refused taken below asked refused =>
      simp only [Arena.space, List.mem_cons, List.not_mem_nil, or_false] at asked
      rcases asked with rfl | rfl
      · rw [Allocator.addressable_of_le t.grown_le (by decide)] at refused
        cases refused
      · rw [Allocator.addressable_of_le t.grown_le (by decide)] at refused
        cases refused

private theorem makeRoom_cases [Inhabited α] {t : Tree α} {sh : Shape α} (h : t.HasShape sh)
    (grants : Allocator) :
    (∃ t', t.makeRoom grants = .ok t' ∧ t'.HasShape sh ∧ t'.nodes.hasFree = true) ∨
      ∃ requested limit, t.makeRoom grants = .error (.full requested limit) ∧
        t.Full grants requested limit := by
  unfold makeRoom
  by_cases hfree : t.nodes.hasFree = true
  · left
    exact ⟨t, by simp [hfree], h, hfree⟩
  · simp only [hfree, if_false, Bool.false_eq_true]
    simp only [Arena.hasFree, Bool.or_eq_true, not_or, Bool.not_eq_true', Bool.not_eq_false,
      List.isEmpty_iff, decide_eq_true_eq] at hfree
    have hsize : t.nodes.size = t.nodes.capacity := by
      have := h.sound.size_add
      have := h.sound.frontier_le
      rw [hfree.1, List.length_nil] at *
      omega
    by_cases hmax : maxSlots ≤ t.nodes.capacity
    · right
      rw [if_pos hmax]
      exact ⟨_, _, rfl, .most (hmax.trans_eq hsize.symm)⟩
    · rw [if_neg hmax]
      have hbelow := not_le.mp hmax
      rcases t.nodes.grow_cases nodeWidth (lt_grown hbelow) grants with
        ⟨hgrow, r, hr, hrefused⟩ | ⟨⟨nodes, hgrow⟩, -⟩
      · right
        exact ⟨t.grown, t.nodes.capacity, by rw [← grown, hgrow]; rfl,
          .refused hsize hbelow hr hrefused⟩
      · left
        obtain ⟨hcap, hfreed, hfrontier, -, -, hget⟩ := Arena.grow_capacity hgrow
        refine ⟨{ t with nodes }, by rw [← grown, hgrow]; rfl, ?_, ?_⟩
        · exact h.congr rfl (Arena.grow_sound h.sound hgrow) hget
        · simp only [Arena.hasFree, hfreed, hfrontier, hcap, hfree.1, List.isEmpty_nil,
            Bool.not_true, Bool.false_or, decide_eq_true_eq]
          have := h.sound.frontier_le
          have := lt_grown hbelow
          omega

private theorem hang_split {t : Tree α} {path : Path α} {gap : Gap} {s : Slot} {row : α}
    (hp : path.Stored t none) (hnd : path.slots.Nodup) (hs : s ∉ path.slots) (hat : gap.At path)
    (hrow : t.nodeAt? s = some ⟨row, none, none, gap.parent, 0⟩) :
    ∃ t', (∀ k : Tree α → Checked (Except Error Slot × Tree α),
        (match gap.parent with
          | none => pure { t with root := some s } >>= k
          | parent => t.edit parent (·.withChild gap.side (some s)) >>= k) = k t') ∧
      t'.Split path (.node .nil s row .nil) ∧ Arena.SameSlots t.nodes t'.nodes := by
  have hnd' : ((Shape.node .nil s row .nil : Shape α).slots ++ path.slots).Nodup :=
    List.nodup_cons.mpr ⟨hs, hnd⟩
  rw [hat.parent] at hrow ⊢
  cases path with
  | top =>
      exact ⟨{ t with root := some s }, fun _ => rfl, ⟨⟨hrow, trivial, trivial⟩, rfl, hnd'⟩,
        Arena.SameSlots.refl _⟩
  | step side u x tilt sibling up =>
      obtain ⟨hu, hsib, hup⟩ := hp
      have hside : gap.side = side := hat.side (by simp)
      simp only [Path.slots, List.mem_cons, List.mem_append, not_or] at hs
      simp only [Path.slots, List.nodup_cons, List.mem_append, not_or] at hnd
      refine ⟨t.put u (Node.facing side x (some s) sibling.link up.link tilt), ?_,
        ⟨⟨?_, trivial, trivial⟩, ⟨nodeAt?_put_self hu _, hsib.put hnd.1.1 _, hup.put hnd.1.2 _⟩,
          hnd'⟩, sameSlots_put hu _⟩
      · intro k
        simp only [Path.link_step, hside]
        rw [edit_of_nodeAt? _ hu, Node.facing_withChild, ok_bind]
      · rw [nodeAt?_put_ne hs.1, hrow]
        rfl

/-- Attaching a row at a gap puts it between what lies before and after the gap, or the tree is full
and stays as it is. -/
theorem attach_at [Inhabited α] {t : Tree α} {path : Path α} {gap : Gap}
    (h : t.HasShape (path.plug .nil)) (hc : path.Counts 0) (hat : gap.At path) (row : α)
    (grants : Allocator) :
    (∃ s t' sh', t.attach gap row grants = .ok (.ok s, t') ∧ t'.HasShape sh' ∧
        sh'.listed .right = (path.beyond .left).reverse ++ (s, row) :: path.beyond .right ∧
        t.nodes.contains (some s) = false) ∨
      ∃ requested limit, t.attach gap row grants = .ok (.error (.full requested limit), t) ∧
        t.Full grants requested limit := by
  rcases makeRoom_cases h grants with ⟨t₁, hroom, h₁, hfree⟩ | ⟨requested, limit, hroom, hfull⟩
  · left
    obtain ⟨s, nodes, halloc, hsound, hnew, hget, hcap, -, -⟩ :=
      Arena.allocate_of_hasFree h₁.sound hfree ⟨row, none, none, gap.parent, 0⟩
    have hfresh : s ∉ (path.plug .nil).slots := by
      intro hm
      rw [(h₁.live_iff s).mpr hm] at hnew
      exact Bool.noConfusion hnew
    have hperm : (path.plug .nil).slots.Perm path.slots := Path.slots_plug path .nil
    let t₂ : Tree α := { t₁ with nodes }
    have hsp : t₁.Split path .nil := h₁.split hc
    have habove : path.Stored t₂ none := by
      refine Path.Stored.congr hsp.above (rfl : t₂.root = t₁.root) ?_
      intro u hu
      have hus : u ≠ s := fun e => hfresh (hperm.mem_iff.mpr (e ▸ hu))
      exact (hget u).trans (if_neg hus)
    have hnode : t₂.nodeAt? s = some ⟨row, none, none, gap.parent, 0⟩ :=
      (hget s).trans (if_pos rfl)
    obtain ⟨t₃, hhang, hsp₃, hsame₃⟩ := hang_split habove hsp.nodup_path
      (fun hm => hfresh (hperm.mem_iff.mpr hm)) hat hnode
    have hbal := (Path.balanced_plug path .nil).mp h₁.balanced
    have hreach : path.length < t₃.retraceReach := by
      have h₂ : (path.slots.length) ≤ nodes.capacity := by
        rw [← hperm.length_eq, h₁.length_slots]
        exact (Arena.size_le_capacity h₁.sound).trans_eq hcap.symm
      have := path.length_le
      have := hsame₃.capacity
      simp only [retraceReach, this, t₂]
      omega
    obtain ⟨t₄, sh', hrun, hsettled⟩ := retraceGrowth_settles (h := 0) hsp₃
      ⟨by simp, trivial, trivial⟩ rfl (.inl rfl) hc hbal.2 hreach
    refine ⟨s, t₄, sh', ?_, hsettled.hasShape ?_ (hsound.congr hsame₃), ?_, ?_⟩
    · simp only [attach, hroom, halloc]
      refine (hhang _).trans ?_
      simp only [Shape.link] at hrun
      rw [hrun]
      rfl
    · intro u
      rw [hsame₃.contains, (Path.slots_plug ..).mem_iff]
      have hcontains : nodes.contains (some u) = true ↔ u = s ∨ u ∈ path.slots := by
        rw [← hperm.mem_iff, ← h₁.live_iff u]
        by_cases hu : u = s <;> simp [Arena.contains, hget, hu]
      rw [hcontains]
      simp [Shape.slots, Shape.listed]
    · rw [hsettled.listed, Path.listed_plug]
      simp [Shape.listed, Side.other]
    · rw [Bool.eq_false_iff]
      intro hcontains
      exact hfresh ((h.live_iff s).mp hcontains)
  · right
    exact ⟨requested, limit, by simp [attach, hroom], hfull⟩

end TableIndex.Tree
