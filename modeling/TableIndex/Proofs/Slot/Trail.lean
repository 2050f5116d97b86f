import Mathlib.Data.List.Nodup
import TableIndex.Slot.Basic

/-!
# Trails

A trail follows links from slot to slot until they end. Where each slot has one link only, a trail
comes to no slot twice, for from there on it would go on as before.
-/

namespace TableIndex

/-- The links from each slot to the next one lead to these slots and end. -/
def Trail (next : Slot → Link → Prop) : Link → List Slot → Prop
  | l, [] => l = none
  | l, s :: rest => l = some s ∧ ∃ l', next s l' ∧ Trail next l' rest

namespace Trail

variable {next : Slot → Link → Prop} {l : Link} {slots slots' : List Slot}

theorem eq_of_trail (hnext : ∀ s l l', next s l → next s l' → l = l') (h : Trail next l slots)
    (h' : Trail next l slots') : slots = slots' := by
  induction slots generalizing l slots' with
  | nil =>
      obtain rfl : l = none := h
      cases slots' with
      | nil => rfl
      | cons s rest => cases h'.1
  | cons s rest ih =>
      obtain ⟨rfl, m, hm, hrest⟩ := h
      cases slots' with
      | nil => cases h'
      | cons s' rest' =>
          obtain ⟨hs, m', hm', hrest'⟩ := h'
          cases hs
          rw [hnext s m' m hm' hm] at hrest'
          rw [ih hrest hrest']

private theorem of_append {before : List Slot} {s : Slot}
    (h : Trail next l (before ++ s :: slots)) :
    Trail next (some s) (s :: slots) := by
  induction before generalizing l with
  | nil =>
      obtain rfl : l = some s := h.1
      exact h
  | cons u before ih =>
      obtain ⟨-, m, -, hrest⟩ := h
      exact ih hrest

theorem nodup (hnext : ∀ s l l', next s l → next s l' → l = l') (h : Trail next l slots) :
    slots.Nodup := by
  induction slots generalizing l with
  | nil => exact List.nodup_nil
  | cons s rest ih =>
      obtain ⟨rfl, m, -, hrest⟩ := id h
      refine List.nodup_cons.mpr ⟨fun hmem => ?_, ih hrest⟩
      -- a trail that came back to its beginning would be longer than itself
      obtain ⟨before, after, rfl⟩ := List.append_of_mem hmem
      have hlength := congrArg List.length (eq_of_trail hnext h (of_append hrest))
      simp only [List.length_cons, List.length_append] at hlength
      omega

theorem exists_next (h : Trail next l slots) {s : Slot} (hs : s ∈ slots) : ∃ l', next s l' := by
  obtain ⟨before, after, rfl⟩ := List.append_of_mem hs
  obtain ⟨-, m, hm, -⟩ := of_append h
  exact ⟨m, hm⟩

end Trail

end TableIndex
