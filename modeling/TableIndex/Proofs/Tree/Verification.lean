import TableIndex.Proofs.Tree.Descent
import TableIndex.Tree.Verify

/-!
# Accepted trees

A check finds no damage in a tree that holds a balanced shape in exactly its live slots and whose
rows are in order, and it gives the number of nodes and the height of the shape.
-/

namespace TableIndex.Tree

variable {α : Type}

private theorem checkBalance_of_balanced (s : Slot) {left right : Nat} (hl : left ≤ right + 1)
    (hr : right ≤ left + 1) :
    checkBalance s (left - right) left right = .ok (1 + max left right) := by
  unfold checkBalance
  rw [if_neg (by omega), if_neg (by simp)]

private theorem checkLinks_stored {t : Tree α} {parent : Link} {sh : Shape α} {depth : Nat}
    (h : sh.Stored t parent) (hbalanced : sh.Balanced) (hdepth : sh.height ≤ depth) :
    t.checkLinks depth sh.link parent = .ok sh.height := by
  induction sh generalizing parent depth with
  | nil => rw [Shape.link_nil, checkLinks, Shape.height_nil]
  | node l s x r ihl ihr =>
      obtain ⟨hs, hl, hr⟩ := h
      obtain ⟨⟨hle, hge⟩, hbl, hbr⟩ := hbalanced
      rw [Shape.height] at hdepth
      obtain ⟨depth, rfl⟩ : ∃ d, depth = d + 1 := ⟨depth - 1, by omega⟩
      have hget : t.nodes.get? (some s) = _ := hs
      have hleft := ihl hl hbl (show l.height ≤ depth by omega)
      have hright := ihr hr hbr (show r.height ≤ depth by omega)
      rw [Shape.link]
      unfold checkLinks
      simp only [hget, ne_eq, not_true_eq_false, if_false, hleft, hright, ok_bind,
        checkBalance_of_balanced s hle hge, Shape.height]

private theorem checkOrder_listed {t : Tree α} {sh : Shape α} {order : α → α → Ordering}
    (h : t.HasShape sh) (visited : List (Slot × α)) {after : List (Slot × α)} (budget : Nat)
    (last : Option (Slot × α)) (hlist : sh.listed .right = visited ++ after)
    (hbudget : after.length ≤ budget) (hlast : ∀ d ∈ last, ∀ e ∈ after, order d.2 e.2 ≠ .gt)
    (hsorted : after.Pairwise fun a b => order a.2 b.2 ≠ .gt) :
    t.checkOrder order budget last (after.head?.map Prod.fst) =
      .ok (.ok (budget - after.length)) := by
  induction after generalizing visited budget last with
  | nil => simp [checkOrder]
  | cons e after ih =>
      obtain ⟨s, x⟩ := e
      obtain ⟨budget, rfl⟩ : ∃ b, budget = b + 1 := ⟨budget - 1, by simp at hbudget; omega⟩
      obtain ⟨hrow, hnext⟩ := neighbor_listed h hlist
      have hnone : last.filter (fun d => order d.2 x == .gt) = none := by
        cases last with
        | none => rfl
        | some d => simp [Option.filter, hlast d rfl (s, x) (by simp)]
      rw [List.pairwise_cons] at hsorted
      have hrest := ih (visited ++ [(s, x)]) budget (some (s, x)) (by simpa using hlist)
        (by simpa using hbudget)
        (fun d hd e he => Option.some.inj hd ▸ hsorted.1 e he) hsorted.2
      simp only [List.head?_cons, Option.map_some, checkOrder, hrow, ok_bind, hnone, next, hnext,
        hrest, List.length_cons, Nat.add_sub_add_right]

private theorem HasShape.rootHasParent {t : Tree α} {sh : Shape α} (h : t.HasShape sh) :
    t.rootHasParent = .ok false := by
  unfold Tree.rootHasParent
  cases sh with
  | nil => rw [h.root_eq]; rfl
  | node l s x r =>
      rw [h.root_eq]
      simp only [Shape.link, node_of_nodeAt? h.stored.1, ok_bind, pure_eq_ok]
      rfl

private theorem HasShape.checkRows {t : Tree α} {sh : Shape α} {order : α → α → Ordering}
    (h : t.HasShape sh) (hsorted : (sh.listed .right).Pairwise fun a b => order a.2 b.2 ≠ .gt) :
    t.checkRows order = .ok (.ok ()) := by
  have hlength : (sh.listed .right).length = t.size := by
    rw [Shape.length_listed, h.length_slots]
  have hfirst : t.first = .ok ((sh.listed .right).head?.map Prod.fst) := endmost_listed h .right
  have hrun := checkOrder_listed h [] _ none (List.nil_append _).symm hlength.le (by simp) hsorted
  rw [hlength, Nat.sub_self] at hrun
  rw [Tree.checkRows, hfirst, ok_bind, hrun, ok_bind]
  rfl

/-- A sound tree with its rows in order is accepted. -/
theorem HasShape.verify {t : Tree α} {sh : Shape α} {order : α → α → Ordering}
    (h : t.HasShape sh) (hsorted : (sh.listed .right).Pairwise fun a b => order a.2 b.2 ≠ .gt) :
    t.verify order = .ok (.ok ⟨t.size, sh.height⟩) := by
  have hdepth : sh.height ≤ t.size + 1 := by
    have := Shape.height_le_length sh
    rw [h.length_slots] at this
    omega
  have hlinks : t.checkLinks (t.size + 1) t.root none = .ok sh.height := by
    rw [h.root_eq]
    exact checkLinks_stored h.stored h.balanced hdepth
  rw [Tree.verify, h.rootHasParent, ok_bind, if_neg (by simp), hlinks]
  simp only [h.checkRows hsorted, ok_bind, pure_eq_ok]

end TableIndex.Tree
