import Mathlib.Data.Nat.Fib.Basic
import TableIndex.Proofs.Tree.Runs

/-!
# Heights

The balances lead down a longest path, so one walk measures the height. A balanced shape has at
least as many nodes as the sparsest one of its height, whose subtrees are the sparsest ones of the
two heights below: the heights grow with the logarithm of the size, and so do all descents.
-/

namespace TableIndex

namespace Shape

variable {α : Type}

private theorem fib_le_length {sh : Shape α} (h : sh.Balanced) :
    Nat.fib (sh.height + 2) ≤ sh.slots.length + 1 := by
  induction sh with
  | nil => simp
  | node l s x r ihl ihr =>
      obtain ⟨⟨hle, hge⟩, hl, hr⟩ := h
      have hlength : (node l s x r).slots.length = l.slots.length + r.slots.length + 1 := by
        have hperm := (slots_join .left l s x r).length_eq
        rwa [join, List.length_cons, List.length_append] at hperm
      have hleft := ihl hl
      have hright := ihr hr
      have hsum : Nat.fib ((node l s x r).height + 2) =
          Nat.fib (max l.height r.height + 1) + Nat.fib (max l.height r.height + 2) := by
        rw [height, Nat.add_comm 1, ← Nat.fib_add_two]
      rw [hsum, hlength]
      -- the taller subtree has the greater number, the other one is at most one level lower
      rcases le_total r.height l.height with hmax | hmax
      · rw [max_eq_left hmax]
        have hlower := (Nat.fib_mono (show l.height + 1 ≤ r.height + 2 by omega)).trans hright
        omega
      · rw [max_eq_right hmax]
        have hlower := (Nat.fib_mono (show r.height + 1 ≤ l.height + 2 by omega)).trans hleft
        omega

end Shape

/-- The greatest height of a balanced tree of `size` nodes. -/
def maxHeight (size : Nat) : Nat := Nat.findGreatest (fun h => Nat.fib (h + 2) ≤ size + 1) size

private theorem le_maxHeight_iff {size h : Nat} : h ≤ maxHeight size ↔ Nat.fib
    (h + 2) ≤ size + 1 := by
  constructor
  · intro hle
    have hmax : Nat.fib (maxHeight size + 2) ≤ size + 1 :=
      Nat.findGreatest_spec (P := fun h => Nat.fib (h + 2) ≤ size + 1) (Nat.zero_le size) (by simp)
    exact (Nat.fib_mono (Nat.add_le_add_right hle 2)).trans hmax
  · intro hfib
    have hgrowth := Nat.le_fib_add_one (h + 2)
    exact Nat.le_findGreatest (by omega) hfib

private theorem maxHeight_le (size : Nat) : maxHeight size ≤ size := Nat.findGreatest_le size

namespace Tree

variable {α : Type} {t : Tree α} {sh : Shape α} {parent : Link}

private theorem heightFrom_stored {fuel : Nat} (h : sh.Stored t parent) (hfuel : sh.height ≤ fuel) :
    t.heightFrom fuel sh.link = .ok sh.height := by
  induction fuel generalizing sh parent with
  | zero =>
      obtain rfl := Shape.height_eq_zero.mp (Nat.le_zero.mp hfuel)
      rw [Shape.link_nil, heightFrom, Shape.height_nil]
  | succ fuel ih =>
      cases sh with
      | nil => rw [Shape.link_nil, heightFrom, Shape.height_nil]
      | node l s x r =>
          obtain ⟨hs, hl, hr⟩ := h
          rw [Shape.height] at hfuel ⊢
          rw [Shape.link, heightFrom, node_of_nodeAt? hs, ok_bind]
          by_cases hlt : (l.height : Int) - r.height < 0
          · rw [if_pos hlt, ih hr (by omega), ok_bind, pure_eq_ok]
            exact congrArg Except.ok (by omega)
          · rw [if_neg hlt, ih hl (by omega), ok_bind, pure_eq_ok]
            exact congrArg Except.ok (by omega)

private theorem HasShape.height_eq (h : t.HasShape sh) : t.height = .ok sh.height := by
  rw [Tree.height, h.root_eq, heightFrom_stored h.stored h.height_le_reach]

/-- The links lead from `l` down through these nodes, each time to a child on either side. -/
inductive Descends (t : Tree α) : Link → List Slot → Prop
  | stop (l : Link) : Descends t l []
  | step {s : Slot} {n : Node α} {side : Side} {below : List Slot} :
      t.node (some s) = .ok n → Descends t (n.child side) below → Descends t (some s) (s :: below)

private theorem Descends.length_le {l : Link} {visited : List Slot} (hd : t.Descends l visited)
    (h : sh.Stored t parent) (hl : sh.link = l) : visited.length ≤ sh.height := by
  induction hd generalizing sh parent with
  | stop l => exact Nat.zero_le _
  | @step s n side below hn _ ih =>
      obtain rfl | ⟨p, u, x, q, rfl⟩ := Shape.eq_nil_or_join side sh
      · cases hl
      rw [Shape.link_join, Option.some.injEq] at hl
      subst u
      obtain ⟨hs, hp, -⟩ := (Shape.stored_join ..).mp h
      obtain rfl := Except.ok.inj ((node_of_nodeAt? hs).symm.trans hn)
      have hbelow := ih hp (Node.facing_child ..).symm
      rw [List.length_cons, Shape.height_join]
      omega

private theorem searchFrom_mono {side : Side} {p : α → Bool} {fuel fuel' : Nat}
    {found l answer : Link} (h : t.searchFrom side p fuel found l = .ok answer)
    (hle : fuel ≤ fuel') :
    t.searchFrom side p fuel' found l = .ok answer := by
  induction fuel generalizing fuel' found l with
  | zero =>
      cases l with
      | none =>
          rw [searchFrom] at h ⊢
          exact h
      | some s => cases h
  | succ fuel ih =>
      obtain ⟨fuel', rfl⟩ : ∃ n, fuel' = n + 1 := ⟨fuel' - 1, by omega⟩
      cases l with
      | none =>
          rw [searchFrom] at h ⊢
          exact h
      | some s =>
          rw [searchFrom, bind_eq_ok] at h ⊢
          obtain ⟨n, hn, h⟩ := h
          refine ⟨n, hn, ?_⟩
          split at h
          · next hp => rw [if_pos hp, ih h (by omega)]
          · next hp => rw [if_neg hp, ih h (by omega)]

private theorem gapFrom_mono {order : List α → α → Ordering} {fuel fuel' : Nat} {asked : List α}
    {gap answer : Gap} {l : Link} (h : t.gapFrom order fuel asked gap l = .ok answer)
    (hle : fuel ≤ fuel') : t.gapFrom order fuel' asked gap l = .ok answer := by
  induction fuel generalizing fuel' asked gap l with
  | zero =>
      cases l with
      | none =>
          rw [gapFrom] at h ⊢
          exact h
      | some s => cases h
  | succ fuel ih =>
      obtain ⟨fuel', rfl⟩ : ∃ n, fuel' = n + 1 := ⟨fuel' - 1, by omega⟩
      cases l with
      | none =>
          rw [gapFrom] at h ⊢
          exact h
      | some s =>
          rw [gapFrom, bind_eq_ok] at h ⊢
          obtain ⟨n, hn, h⟩ := h
          refine ⟨n, hn, ?_⟩
          split at h
          · next hlt => rw [if_pos hlt, ih h (by omega)]
          · next hlt => rw [if_neg hlt, ih h (by omega)]

private theorem descendTo_mono {side : Side} {fuel fuel' : Nat} {l answer : Link}
    (h : t.descendTo side fuel l = .ok answer) (hle : fuel ≤ fuel') :
    t.descendTo side fuel' l = .ok answer := by
  induction fuel generalizing fuel' l with
  | zero => cases h
  | succ fuel ih =>
      obtain ⟨fuel', rfl⟩ : ∃ n, fuel' = n + 1 := ⟨fuel' - 1, by omega⟩
      rw [descendTo, bind_eq_ok] at h ⊢
      obtain ⟨n, hn, h⟩ := h
      refine ⟨n, hn, ?_⟩
      cases hchild : n.child side with
      | none => simpa [hchild] using h
      | some s =>
          rw [hchild] at h
          exact ih h (by omega)

/-- No descent from the root visits more nodes than there are levels, and the searches, which take a
step for each node, end within as many. -/
structure Shallow (t : Tree α) (levels : Nat) : Prop where
  path : ∀ visited, t.Descends t.root visited → visited.length ≤ levels
  height : ∃ h, t.heightFrom levels t.root = .ok h ∧ t.height = .ok h
  search : ∀ side p, ∃ l, t.searchFrom side p levels none t.root = .ok l ∧ t.boundary side p = .ok l
  gap : ∀ order, ∃ gap, t.gapFrom order levels [] ⟨none, .left, none, none⟩ t.root = .ok gap ∧
    t.gapBy order = .ok gap
  endmost : ∀ side, t.root ≠ none →
    ∃ l, t.descendTo side levels t.root = .ok l ∧ t.endmost side = .ok l

private theorem HasShape.shallow (h : t.HasShape sh) {levels : Nat} (hle : sh.height ≤ levels)
    (hreach : levels ≤ t.reach) : t.Shallow levels where
  path visited hd := (hd.length_le h.stored h.root_eq.symm).trans hle
  height := ⟨sh.height, by rw [h.root_eq, heightFrom_stored h.stored hle], h.height_eq⟩
  search := by
    intro side p
    obtain ⟨l, hrun, -⟩ := searchFrom_mem side p none h.stored hle
    rw [← h.root_eq] at hrun
    exact ⟨l, hrun, searchFrom_mono hrun hreach⟩
  gap := by
    intro order
    obtain ⟨gap, -, hrun, -⟩ := gapFrom_stored order [] h.stored hle Gap.at_top trivial
    rw [← h.root_eq] at hrun
    exact ⟨gap, hrun, gapFrom_mono hrun hreach⟩
  endmost := by
    intro side hne
    obtain ⟨r, hr⟩ := Option.ne_none_iff_exists'.mp hne
    obtain ⟨-, s, -, -, hrun, -⟩ := descendTo_stored side h.stored (h.root_eq.symm.trans hr) hle
    rw [endmost, hr]
    exact ⟨some s, hrun, descendTo_mono hrun hreach⟩

/-- Every run builds a tree whose height is measured along the balances and is at most logarithmic
in its size. -/
theorem run_logarithmic [Inhabited α] (capacity : Nat) (guarded : Bool) (steps : List (Step α)) :
    ∃ (t : Tree α) (sh : Shape α), (ofCapacity capacity guarded).run steps = .ok t ∧
      t.HasShape sh ∧ t.height = .ok sh.height ∧ Nat.fib (sh.height + 2) - 1 ≤ t.size ∧
      t.Shallow (maxHeight t.size) := by
  obtain ⟨t, sh, hrun, h⟩ := run_hasShape (ofCapacity_hasShape capacity guarded) steps
  have hfib : Nat.fib (sh.height + 2) ≤ t.size + 1 := by
    rw [← h.length_slots]
    exact Shape.fib_le_length h.balanced
  have hreach : maxHeight t.size ≤ t.reach :=
    (maxHeight_le t.size).trans (Arena.size_le_capacity h.sound)
  exact ⟨t, sh, hrun, h, h.height_eq, Nat.sub_le_of_le_add hfib,
    h.shallow (le_maxHeight_iff.mpr hfib) hreach⟩

/-- Twelve nodes make the sparsest tree of five levels, and with one less there are four. -/
example : maxHeight 12 = 5 ∧ maxHeight 11 = 4 := by decide

end Tree
end TableIndex
