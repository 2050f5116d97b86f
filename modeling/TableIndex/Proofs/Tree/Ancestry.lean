import TableIndex.Proofs.Tree.Listing

/-!
# Ancestors

A shape can be stored with nodes that stand in it twice: one node may be both children of another.
But every node of it names its parent, so the way up from a slot is the same wherever the slot
stands. It holds no node twice, which bounds the height of the shape by the number of live nodes;
and two places with the same way up differ only where a node is both children of its parent.
-/

namespace TableIndex

variable {α : Type}

namespace Tree

/-- The node in the slot names this parent. -/
def NamesParent (t : Tree α) (s : Slot) (l : Link) : Prop :=
  ∃ n, t.nodeAt? s = some n ∧ n.parent = l

/-- The node in the slot does not have one node as both children. -/
def Forks (t : Tree α) (s : Slot) : Prop :=
  ∃ n, t.nodeAt? s = some n ∧ (n.left = n.right → n.left = none)

variable {t : Tree α} {l : Link} {slots : List Slot}

private theorem namesParent_unique (t : Tree α) (s : Slot) (l l' : Link) (h : t.NamesParent s l)
    (h' : t.NamesParent s l') : l = l' := by
  obtain ⟨n, hn, rfl⟩ := h
  obtain ⟨n', hn', rfl⟩ := h'
  rw [hn] at hn'
  cases hn'
  rfl

theorem length_le_of_trail (hsound : t.nodes.Sound) (h : Trail t.NamesParent l slots) :
    slots.length ≤ t.size := by
  refine Arena.length_le_size hsound (h.nodup t.namesParent_unique) fun s hs => ?_
  obtain ⟨-, n, hn, -⟩ := h.exists_next hs
  exact Arena.contains_of_get? hn

end Tree

namespace Shape

variable {t : Tree α} {sh : Shape α} {parent : Link} {up : List Slot}

private theorem Stored.trail_root {l r : Shape α} {s : Slot} {x : α}
    (h : (node l s x r).Stored t parent) (hup : Trail t.NamesParent parent up) :
    Trail t.NamesParent (some s) (s :: up) :=
  ⟨rfl, parent, ⟨_, h.1, rfl⟩, hup⟩

private theorem Stored.trail_of_mem (h : sh.Stored t parent) (hup : Trail t.NamesParent parent up)
    {u : Slot} (hu : u ∈ sh.slots) :
    ∃ way, Trail t.NamesParent (some u) (u :: (way ++ up)) ∧ (u :: way).getLast? = sh.link := by
  induction sh generalizing parent up with
  | nil => simp at hu
  | node l s x r ihl ihr =>
      have hroot := h.trail_root hup
      obtain ⟨-, hl, hr⟩ := h
      have hperm : (node l s x r).slots.Perm (s :: (l.slots ++ r.slots)) := slots_join .left l s x r
      rw [hperm.mem_iff, List.mem_cons, List.mem_append] at hu
      rcases hu with rfl | hu | hu
      · exact ⟨[], hroot, rfl⟩
      · obtain ⟨way, htrail, -⟩ := ihl hl hroot hu
        refine ⟨way ++ [s], by simpa using htrail, ?_⟩
        rw [← List.cons_append, List.getLast?_append]
        rfl
      · obtain ⟨way, htrail, -⟩ := ihr hr hroot hu
        refine ⟨way ++ [s], by simpa using htrail, ?_⟩
        rw [← List.cons_append, List.getLast?_append]
        rfl

private theorem Stored.not_mem_below {s : Slot} (h : sh.Stored t (some s))
    (hup : Trail t.NamesParent (some s) (s :: up)) : s ∉ sh.slots := by
  intro hs
  obtain ⟨way, htrail, -⟩ := h.trail_of_mem hup hs
  have hlength := congrArg List.length (htrail.eq_of_trail t.namesParent_unique hup)
  simp only [List.length_cons, List.length_append] at hlength
  omega

private theorem Stored.disjoint {l r : Shape α} {s : Slot} (hl : l.Stored t (some s))
    (hr : r.Stored t (some s)) (hup : Trail t.NamesParent (some s) (s :: up))
    (hfork : l.link = r.link → l.link = none) {u : Slot} (hul : u ∈ l.slots) : u ∉ r.slots := by
  intro hur
  obtain ⟨way, htrail, hlast⟩ := hl.trail_of_mem hup hul
  obtain ⟨way', htrail', hlast'⟩ := hr.trail_of_mem hup hur
  have hways : u :: way = u :: way' :=
    List.append_cancel_right (htrail.eq_of_trail t.namesParent_unique htrail')
  rw [hways, hlast'] at hlast
  have hnone := (List.getLast?_eq_none_iff).mp (hlast'.trans (hlast.trans (hfork hlast.symm)))
  cases hnone

theorem Stored.nodup_of_forks (h : sh.Stored t parent) (hup : Trail t.NamesParent parent up)
    (hfork : ∀ s ∈ sh.slots, t.Forks s) : sh.slots.Nodup := by
  induction sh generalizing parent up with
  | nil => exact List.nodup_nil
  | node l s x r ihl ihr =>
      have hroot := h.trail_root hup
      obtain ⟨hs, hl, hr⟩ := h
      have hperm : (node l s x r).slots.Perm (s :: (l.slots ++ r.slots)) := slots_join .left l s x r
      simp only [hperm.mem_iff, List.mem_cons, List.mem_append] at hfork
      obtain ⟨n, hn, hchildren⟩ := hfork s (.inl rfl)
      rw [hs] at hn
      cases hn
      rw [hperm.nodup_iff, List.nodup_cons, List.mem_append, not_or, List.nodup_append]
      refine ⟨⟨hl.not_mem_below hroot, hr.not_mem_below hroot⟩, ?_, ?_, ?_⟩
      · exact ihl hl hroot fun u hu => hfork u (.inr (.inl hu))
      · exact ihr hr hroot fun u hu => hfork u (.inr (.inr hu))
      · rintro u hu _ hur rfl
        exact hl.disjoint hr hroot hchildren hu hur

private theorem Stored.exists_deepest (h : sh.Stored t parent)
    (hup : Trail t.NamesParent parent up) :
    ∃ l way, Trail t.NamesParent l (way ++ up) ∧ way.length = sh.height := by
  induction sh generalizing parent up with
  | nil => exact ⟨parent, [], hup, rfl⟩
  | node l s x r ihl ihr =>
      have hroot := h.trail_root hup
      obtain ⟨-, hl, hr⟩ := h
      rcases le_total r.height l.height with hle | hle
      · obtain ⟨m, way, htrail, hlength⟩ := ihl hl hroot
        refine ⟨m, way ++ [s], by simpa using htrail, ?_⟩
        rw [List.length_append, hlength, height, max_eq_left hle, List.length_singleton, add_comm]
      · obtain ⟨m, way, htrail, hlength⟩ := ihr hr hroot
        refine ⟨m, way ++ [s], by simpa using htrail, ?_⟩
        rw [List.length_append, hlength, height, max_eq_right hle, List.length_singleton, add_comm]

theorem Stored.height_le_size (h : sh.Stored t parent) (hsound : t.nodes.Sound)
    (hup : Trail t.NamesParent parent up) : sh.height ≤ t.size := by
  obtain ⟨l, way, htrail, hlength⟩ := h.exists_deepest hup
  have hle := Tree.length_le_of_trail hsound htrail
  rw [List.length_append, hlength] at hle
  omega

end Shape

theorem Path.Stored.exists_trail {t : Tree α} {path : Path α} {l : Link} (h : path.Stored t l) :
    ∃ up, Trail t.NamesParent path.link up ∧ up.length = path.length := by
  induction path generalizing l with
  | top => exact ⟨[], rfl, rfl⟩
  | step side s x tilt sibling rest ih =>
      obtain ⟨hs, -, hrest⟩ := h
      obtain ⟨up, htrail, hlength⟩ := ih hrest
      refine ⟨s :: up, ⟨rfl, _, ⟨_, hs, Node.facing_parent ..⟩, htrail⟩, ?_⟩
      rw [List.length_cons, hlength, Path.length]

end TableIndex
