import TableIndex.Proofs.Slot.Trail
import TableIndex.Proofs.Tree.Descent

/-!
# The listing of a tree

The walk from the first node of a tree to each next one comes to no node twice. It is the listing of
the shape if the tree holds one.
-/

namespace TableIndex

namespace Tree

variable {α : Type}

/-- The walk from a link to each next node comes to these nodes, with their rows, and ends. -/
structure Visits (t : Tree α) (l : Link) (nodes : List (Slot × α)) : Prop where
  trail : Trail (fun s l' => t.next (some s) = .ok l') l (nodes.map Prod.fst)
  row : ∀ e ∈ nodes, t.row (some e.1) = .ok e.2

namespace Visits

variable {t : Tree α} {l : Link} {nodes nodes' : List (Slot × α)}

private theorem next_unique (t : Tree α) (s : Slot) (l l' : Link) (h : t.next (some s) = .ok l)
    (h' : t.next (some s) = .ok l') : l = l' := Except.ok.inj (h.symm.trans h')

theorem nodup (h : t.Visits l nodes) : (nodes.map Prod.fst).Nodup := h.trail.nodup (next_unique t)

private theorem mapM_row (h : t.Visits l nodes) :
    (nodes.map Prod.fst).mapM (fun s => t.row (some s)) = .ok (nodes.map Prod.snd) := by
  have hrow := h.row
  clear h
  induction nodes with
  | nil => rfl
  | cons e rest ih =>
      have hrest := ih fun e' he' => hrow e' (List.mem_cons_of_mem e he')
      simp only [List.map_cons, List.mapM_cons, hrow e List.mem_cons_self, hrest, ok_bind,
        pure_eq_ok]

theorem eq_of_visits (h : t.Visits l nodes) (h' : t.Visits l nodes') : nodes = nodes' := by
  have hslots := h.trail.eq_of_trail (next_unique t) h'.trail
  have hrows : nodes.map Prod.snd = nodes'.map Prod.snd := by
    have hmap := h.mapM_row
    rw [hslots, h'.mapM_row] at hmap
    exact (Except.ok.inj hmap).symm
  rw [← List.zip_unzip nodes, ← List.zip_unzip nodes', List.unzip_eq_map, List.unzip_eq_map,
    hslots, hrows]

theorem cons {e : Slot × α} (hrow : t.row (some e.1) = .ok e.2) (hnext : t.next (some e.1) = .ok l)
    (h : t.Visits l nodes) : t.Visits (some e.1) (e :: nodes) where
  trail := ⟨rfl, l, hnext, h.trail⟩
  row := List.forall_mem_cons.mpr ⟨hrow, h.row⟩

end Visits

private theorem slotsFrom_of_trail {t : Tree α} {l : Link} {slots : List Slot} {fuel : Nat}
    (h : Trail (fun s l' => t.next (some s) = .ok l') l slots) (hfuel : slots.length ≤ fuel) :
    t.slotsFrom fuel l = .ok slots := by
  induction slots generalizing l fuel with
  | nil =>
      obtain rfl : l = none := h
      rw [slotsFrom]
  | cons s rest ih =>
      obtain ⟨rfl, m, hm, hrest⟩ := h
      obtain ⟨fuel, rfl⟩ : ∃ f, fuel = f + 1 := ⟨fuel - 1, by simp at hfuel; omega⟩
      have htail := ih hrest (by simpa using hfuel)
      simp only [slotsFrom, hm, ok_bind, htail, pure_eq_ok]

/-- These are the nodes of the tree in order: all live slots, each once, with their rows. -/
structure Lists (t : Tree α) (nodes : List (Slot × α)) : Prop where
  slots : t.slots = .ok (nodes.map Prod.fst)
  toList : t.toList = .ok (nodes.map Prod.snd)
  row : ∀ e ∈ nodes, t.row (some e.1) = .ok e.2
  nodup : (nodes.map Prod.fst).Nodup
  live_iff : ∀ s, t.nodes.contains (some s) = true ↔ s ∈ nodes.map Prod.fst
  size : t.size = nodes.length

namespace HasShape

variable {t : Tree α} {sh : Shape α}

theorem visits (h : t.HasShape sh) {before after : List (Slot × α)}
    (hlist : sh.listed .right = before ++ after) : t.Visits (after.head?.map Prod.fst) after := by
  induction after generalizing before with
  | nil => exact ⟨rfl, by simp⟩
  | cons e after ih =>
      obtain ⟨hrow, hnext⟩ := neighbor_listed h hlist
      have hlist' : sh.listed .right = before ++ [e] ++ after := by
        rw [hlist]
        simp
      exact .cons hrow hnext (ih hlist')

theorem lists (h : t.HasShape sh) : t.Lists (sh.listed .right) := by
  have hvisits := h.visits (List.nil_append (sh.listed .right)).symm
  have hlength : (sh.listed .right).length = sh.slots.length := Shape.length_listed .right sh
  have hfirst : t.first = .ok ((sh.listed .right).head?.map Prod.fst) := endmost_listed h .right
  have hslots : t.slots = .ok ((sh.listed .right).map Prod.fst) := by
    rw [Tree.slots, hfirst, ok_bind]
    refine slotsFrom_of_trail hvisits.trail ?_
    rw [List.length_map, hlength]
    exact h.length_le_reach
  constructor
  · exact hslots
  · rw [Tree.toList, hslots, ok_bind]
    exact hvisits.mapM_row
  · exact hvisits.row
  · exact h.nodup
  · exact h.live_iff
  · rw [hlength, h.length_slots]

end HasShape
end Tree
end TableIndex
