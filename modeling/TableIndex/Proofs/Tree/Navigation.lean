import TableIndex.Proofs.Tree.Listing
import TableIndex.Proofs.Tree.Runs

/-!
# Navigation

Steps climb parent links and descend child links, and searches descend from the root and remember
their last hit. None of them knows the nodes in order, and all of them answer by that one list.
-/

namespace TableIndex.Tree

variable {α : Type}

/-- The ends, the steps to both neighbours and the searches of a tree answer by its nodes in order.
-/
structure Navigates (t : Tree α) (nodes : List (Slot × α)) : Prop where
  first : t.first = .ok (nodes.head?.map Prod.fst)
  last : t.last = .ok (nodes.getLast?.map Prod.fst)
  next : ∀ i e, nodes[i]? = some e → t.next (some e.1) = .ok (nodes[i + 1]?.map Prod.fst)
  prev : ∀ i e, nodes[i]? = some e →
    t.prev (some e.1) = .ok (if i = 0 then none else nodes[i - 1]?.map Prod.fst)
  next_iff_prev : ∀ s u, t.nodes.contains (some s) = true → t.nodes.contains (some u) = true →
    (t.next (some s) = .ok (some u) ↔ t.prev (some u) = .ok (some s))
  rows : t.toList = .ok (nodes.map Prod.snd) ∧ nodes.length = t.size
  findFirst : ∀ (p : α → Bool) (before after : List (Slot × α)), nodes = before ++ after →
    (∀ e ∈ before, p e.2 = false) → (∀ e ∈ after, p e.2 = true) →
    t.findFirst p = .ok (after.head?.map Prod.fst)
  findLast : ∀ (p : α → Bool) (before after : List (Slot × α)), nodes = before ++ after →
    (∀ e ∈ before, p e.2 = true) → (∀ e ∈ after, p e.2 = false) →
    t.findLast p = .ok (before.getLast?.map Prod.fst)

private theorem split_at {nodes : List (Slot × α)} {i : Nat} {e : Slot × α}
    (he : nodes[i]? = some e) : nodes = nodes.take i ++ e :: nodes.drop (i + 1) := by
  have hi := (List.getElem?_eq_some_iff.mp he).1
  calc nodes = nodes.take i ++ nodes.drop i := (List.take_append_drop i nodes).symm
    _ = nodes.take i ++ e :: nodes.drop (i + 1) := by
      rw [List.drop_eq_getElem_cons hi, (List.getElem?_eq_some_iff.mp he).2]

namespace HasShape

variable {t : Tree α} {sh : Shape α}

private theorem last_eq (h : t.HasShape sh) :
    t.last = .ok ((sh.listed .right).getLast?.map Prod.fst) := by
  have hend : t.last = .ok ((sh.listed .left).head?.map Prod.fst) := endmost_listed h .left
  have hreverse : sh.listed .left = (sh.listed .right).reverse := Shape.listed_other .right sh
  rw [hend, hreverse, List.head?_reverse]

private theorem next_eq (h : t.HasShape sh) {i : Nat} {e : Slot × α}
    (he : (sh.listed .right)[i]? = some e) :
    t.next (some e.1) = .ok ((sh.listed .right)[i + 1]?.map Prod.fst) := by
  rw [← List.head?_drop]
  exact (neighbor_listed h (split_at he)).2

private theorem prev_eq (h : t.HasShape sh) {i : Nat} {e : Slot × α}
    (he : (sh.listed .right)[i]? = some e) :
    t.prev (some e.1) =
      .ok (if i = 0 then none else (sh.listed .right)[i - 1]?.map Prod.fst) := by
  have hi := (List.getElem?_eq_some_iff.mp he).1
  have hlist : sh.listed .left =
      ((sh.listed .right).drop (i + 1)).reverse ++ e :: ((sh.listed .right).take i).reverse := by
    have hreverse : sh.listed .left = (sh.listed .right).reverse := Shape.listed_other .right sh
    rw [hreverse, congrArg List.reverse (split_at he)]
    simp
  have hprev : t.prev (some e.1) =
      .ok (((sh.listed .right).take i).reverse.head?.map Prod.fst) := (neighbor_listed h hlist).2
  rw [hprev, List.head?_reverse, List.getLast?_take]
  cases i with
  | zero => rfl
  | succ i =>
      have hbefore : (sh.listed .right)[i]? = some (sh.listed .right)[i] :=
        List.getElem?_eq_getElem (by omega)
      simp [hbefore]

private theorem neighbor_other (h : t.HasShape sh) {side : Side} {s u : Slot}
    (hs : t.nodes.contains (some s) = true) (hstep : t.neighbor side (some s) = .ok (some u)) :
    t.neighbor side.other (some u) = .ok (some s) := by
  obtain ⟨x, hx⟩ := (Shape.mem_slots side).mp ((h.live_iff s).mp hs)
  obtain ⟨before, after, hlist⟩ := List.append_of_mem hx
  have hhead := Except.ok.inj ((neighbor_listed h hlist).2.symm.trans hstep)
  cases after with
  | nil => cases hhead
  | cons e after =>
      obtain rfl : e.1 = u := Option.some.inj hhead
      have hother : sh.listed side.other = after.reverse ++ e :: (s, x) :: before.reverse := by
        rw [Shape.listed_other, hlist]
        simp
      exact (neighbor_listed h hother).2

private theorem findLast_eq (h : t.HasShape sh) {p : α → Bool} {before after : List (Slot × α)}
    (hlist : sh.listed .right = before ++ after) (hbefore : ∀ e ∈ before, p e.2 = true)
    (hafter : ∀ e ∈ after, p e.2 = false) :
    t.findLast p = .ok (before.getLast?.map Prod.fst) := by
  have hreverse : sh.listed Side.right.other = after.reverse ++ before.reverse := by
    rw [Shape.listed_other, hlist, List.reverse_append]
  have hfound : t.findLast p = .ok (before.reverse.head?.map Prod.fst) :=
    h.boundary_of_append .right hreverse (fun e he => hafter e (List.mem_reverse.mp he))
      (fun e he => hbefore e (List.mem_reverse.mp he))
  rw [hfound, List.head?_reverse]

private theorem navigates (h : t.HasShape sh) : t.Navigates (sh.listed .right) where
  first := endmost_listed h .right
  last := h.last_eq
  next _ _ := h.next_eq
  prev _ _ := h.prev_eq
  next_iff_prev _ _ hs hu := ⟨h.neighbor_other hs, h.neighbor_other hu⟩
  rows := ⟨h.lists.toList, h.lists.size.symm⟩
  findFirst _ _ _ hlist hbefore hafter := h.boundary_of_append .left hlist hbefore hafter
  findLast _ _ _ := h.findLast_eq

end HasShape

/-- Every run ends in a tree whose steps and searches answer by the list that its child links give
in order. -/
theorem run_navigates [Inhabited α] (capacity : Nat) (guarded : Bool) (steps : List (Step α)) :
    ∃ (t : Tree α) (sh : Shape α), (ofCapacity capacity guarded).run steps = .ok t ∧
      t.HasShape sh ∧ t.Navigates (sh.listed .right) := by
  obtain ⟨t, sh, hrun, h⟩ := run_hasShape (ofCapacity_hasShape capacity guarded) steps
  exact ⟨t, sh, hrun, h, h.navigates⟩

end TableIndex.Tree
