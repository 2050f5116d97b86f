import TableIndex.Proofs.Tree.Listing
import TableIndex.Proofs.Tree.Runs

/-!
# Rows in order

An insertion puts one node into the listing of a tree and a removal takes one out, whatever is
rotated on the way. All other nodes keep their place and their rows, except that a node with two
children takes over the row of the next node in order.
-/

namespace TableIndex.Tree

variable {α : Type}

/-- The row gets a new slot directly behind the last row that is not greater, and the gap for it
names the nodes on both sides. -/
def InsertsInOrder [Inhabited α] (t : Tree α) (nodes : List (Slot × α)) (order : α → α → Ordering)
    (row : α) (grants : Allocator := .addressable) : Prop :=
  ∃ before after gap s t', nodes = before ++ after ∧ (∀ e ∈ before, order e.2 row ≠ .gt) ∧
    (∀ e ∈ after, order e.2 row = .gt) ∧ t.gap (order row) = .ok gap ∧
    gap.before = before.getLast?.map Prod.fst ∧ gap.after = after.head?.map Prod.fst ∧
    t.insert row (order row) grants = .ok (.ok s, t') ∧ t.nodes.contains (some s) = false ∧
    t'.Lists (before ++ (s, row) :: after)

/-- A full tree refuses the row and stays as it is. -/
def RefusesRow [Inhabited α] (t : Tree α) (order : α → α → Ordering) (row : α)
    (grants : Allocator) : Prop :=
  ∃ requested limit, t.insert row (order row) grants = .ok (.error (.full requested limit), t) ∧
    t.Full grants requested limit

/-- The row in the slot is given back and its place in the order closed: the slot is freed, or it
has two children and holds the row of the next node, whose slot is freed. -/
def RemovesInOrder [Inhabited α] (t : Tree α) (nodes : List (Slot × α)) (s : Slot) : Prop :=
  ∃ before x after node t', nodes = before ++ (s, x) :: after ∧ t.node (some s) = .ok node ∧
    t.remove (some s) = .ok (some x, t') ∧
    ((node.left = none ∨ node.right = none) ∧ t'.Lists (before ++ after) ∨
      (node.left ≠ none ∧ node.right ≠ none) ∧
        ∃ u y rest, after = (u, y) :: rest ∧ t'.Lists (before ++ (s, y) :: rest))

namespace HasShape

variable [Inhabited α] {t : Tree α} {sh : Shape α}

private theorem insertsInOrder (h : t.HasShape sh) {order : α → α → Ordering} [Std.TransCmp order]
    (hsorted : (sh.listed .right).Pairwise fun a b => order a.2 b.2 ≠ .gt) (row : α)
    (grants : Allocator) :
    t.InsertsInOrder (sh.listed .right) order row grants ∨ t.RefusesRow order row grants := by
  have hmono : (sh.listed .right).Pairwise fun a b =>
      order row b.2 ≠ .lt → order row a.2 ≠ .lt := by
    refine hsorted.imp fun {a b} hab hb ha => hb ?_
    exact Std.TransCmp.lt_of_lt_of_isLE ha (Ordering.isLE_iff_ne_gt.mpr hab)
  obtain ⟨gap, path, hgap, hat, rfl, hc, hbefore, hafter⟩ := h.gap_at hmono
  have hlist : (path.plug .nil).listed .right =
      (path.beyond .left).reverse ++ path.beyond .right := by
    rw [Path.listed_plug]
    rfl
  have hinsert : t.insert row (order row) grants = t.attach gap row grants := by
    rw [insert, insertBy, show t.gapBy (fun _ => order row) = .ok gap from hgap, ok_bind]
  rw [hlist]
  rcases attach_at h hc hat row grants with ⟨s, t', sh', hattach, h', hlist', hfree⟩ |
    ⟨requested, limit, hattach, hfull⟩
  · left
    refine ⟨_, _, gap, s, t', rfl, fun e he => ?_, fun e he => ?_, hgap, ?_, hat.after,
      hinsert.trans hattach, hfree, hlist' ▸ h'.lists⟩
    · have hle := hbefore e (List.mem_reverse.mp he)
      exact fun hgt => hle (Std.OrientedCmp.lt_of_gt hgt)
    · exact Std.OrientedCmp.gt_of_lt (hafter e he)
    · rw [List.getLast?_reverse]
      exact hat.before
  · right
    exact ⟨requested, limit, hinsert.trans hattach, hfull⟩

private theorem removesInOrder (h : t.HasShape sh) {s : Slot}
    (hs : t.nodes.contains (some s) = true) :
    t.RemovesInOrder (sh.listed .right) s := by
  obtain ⟨x, hx⟩ := (Shape.mem_slots .right).mp ((h.live_iff s).mp hs)
  obtain ⟨before, after, hlist⟩ := List.append_of_mem hx
  obtain ⟨node, t', sh', hnode, hrun, h', hcases⟩ := remove_listed h hlist
  refine ⟨before, x, after, node, t', hlist, hnode, hrun, ?_⟩
  rcases hcases with ⟨hopen, hlist'⟩ | ⟨hfull, u, y, rest, hafter, hlist'⟩
  · exact .inl ⟨hopen, hlist' ▸ h'.lists⟩
  · exact .inr ⟨hfull, u, y, rest, hafter, hlist' ▸ h'.lists⟩

end HasShape

/-- Every run ends in a tree with a listing. If this is in order, an insertion puts the new row
behind all rows that are not greater, unless the tree is full, which it is not below the largest
number of slots if all addressable space is granted; and in any case a removal takes out one row. -/
theorem run_in_order [Inhabited α] (capacity : Nat) (guarded : Bool) (steps : List (Step α)) :
    ∃ (t : Tree α) (nodes : List (Slot × α)), (ofCapacity capacity guarded).run steps = .ok t ∧
      t.Lists nodes ∧
      (∀ (order : α → α → Ordering) [Std.TransCmp order],
        nodes.Pairwise (fun a b => order a.2 b.2 ≠ .gt) → ∀ row,
          (t.size < maxSlots → t.InsertsInOrder nodes order row) ∧
            ∀ grants, t.InsertsInOrder nodes order row grants ∨ t.RefusesRow order row grants) ∧
      ∀ s, t.nodes.contains (some s) = true → t.RemovesInOrder nodes s := by
  obtain ⟨t, sh, hrun, h⟩ := run_hasShape (ofCapacity_hasShape capacity guarded) steps
  refine ⟨t, _, hrun, h.lists, fun order _ hsorted row => ⟨fun hroom => ?_, ?_⟩,
    fun _ => h.removesInOrder⟩
  · refine (h.insertsInOrder hsorted row .addressable).resolve_right ?_
    rintro ⟨requested, limit, -, hfull⟩
    exact absurd hroom (not_lt.mpr hfull.maxSlots_le)
  · exact h.insertsInOrder hsorted row

/-- A root with two children: a row equal to its own goes behind it, and its removal moves the row
of slot 2 into slot 0. -/
theorem run_in_order_two_children :
    ∃ (t : Tree Nat) (nodes : List (Slot × Nat)),
      (ofCapacity 4 true).run ([2, 1, 3].map fun row => .insert row fun _ x => compare row x) =
        .ok t ∧
      nodes.map Prod.fst = [1, 0, 2] ∧ nodes.map Prod.snd = [1, 2, 3] ∧
      t.InsertsInOrder nodes compare 2 ∧ t.RemovesInOrder nodes 0 := by
  obtain ⟨t₀, hrun₀, hslots₀, hlist₀, hroom₀, hlive₀⟩ : ∃ t₀ : Tree Nat,
      (ofCapacity 4 true).run ([2, 1, 3].map fun row => .insert row fun _ x => compare row x) =
        .ok t₀ ∧
      t₀.slots = .ok [1, 0, 2] ∧ t₀.toList = .ok [1, 2, 3] ∧ t₀.size = 3 ∧
      t₀.nodes.contains (some 0) = true := ⟨_, rfl, rfl, rfl, rfl, rfl⟩
  obtain ⟨t, nodes, hrun, hlists, hinserts, hremoves⟩ := run_in_order 4 true
    ([2, 1, 3].map fun row => .insert row fun _ x => compare row x)
  obtain rfl := Except.ok.inj (hrun.symm.trans hrun₀)
  have hslots := Except.ok.inj (hlists.slots.symm.trans hslots₀)
  have hrows := Except.ok.inj (hlists.toList.symm.trans hlist₀)
  have hsorted : (nodes.map Prod.snd).Pairwise fun a b => compare a b ≠ .gt := by
    rw [hrows]
    decide
  refine ⟨t, nodes, hrun, hslots, hrows, ?_, hremoves 0 hlive₀⟩
  exact (hinserts compare (List.pairwise_map.mp hsorted) 2).1 (by rw [hroom₀]; decide)

end TableIndex.Tree
