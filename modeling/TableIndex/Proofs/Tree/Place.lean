import TableIndex.Proofs.Tree.Layout

/-!
# Places in a tree

A place is a link that leads to a subtree: the root of the tree, or one child of a node. What hangs
at a place can be exchanged whatever the rest of the tree is.
-/

namespace TableIndex

/-- A link of a tree that leads to a subtree. -/
inductive Place
  | root
  | below (side : Side) (parent : Slot)
  deriving DecidableEq, Repr

/-- The parent of what hangs at the place. -/
def Place.link : Place → Link
  | root => none
  | below _ s => some s

private theorem Place.link_below_ne (side : Side) {s u : Slot} (h : u ≠ s) :
    (below side s).link ≠ some u := fun e => h (Option.some.inj e).symm

namespace Shape

variable {α : Type}

private theorem Stored.child_mem {t : Tree α} {parent : Link} {sh : Shape α}
    (h : sh.Stored t parent) {u v : Slot} {n : Node α} (hu : u ∈ sh.slots)
    (hn : t.nodeAt? u = some n) {side : Side} (hv : n.child side = some v) : v ∈ sh.slots := by
  induction sh generalizing parent with
  | nil => simp at hu
  | node l s x r ihl ihr =>
      have hperm : (node l s x r).slots.Perm _ := slots_join .left l s x r
      obtain ⟨hs, hl, hr⟩ := h
      rw [hperm.mem_iff, List.mem_cons, List.mem_append] at hu ⊢
      rcases hu with rfl | hu | hu
      · rw [hs, Option.some.injEq] at hn
        subst hn
        cases side with
        | left => exact .inr (.inl (link_mem hv))
        | right => exact .inr (.inr (link_mem hv))
      · exact .inr (.inl (ihl hl hu))
      · exact .inr (.inr (ihr hr hu))

private theorem Stored.child_ne {t : Tree α} {parent : Link} {l r : Shape α} {s : Slot} {x : α}
    (h : (node l s x r).Stored t parent) (hnd : (node l s x r).slots.Nodup) {u : Slot} {n : Node α}
    (hu : u ∈ (node l s x r).slots) (hn : t.nodeAt? u = some n) (side : Side) :
    n.child side ≠ some s := by
  have hperm : (node l s x r).slots.Perm _ := slots_join .left l s x r
  have hnd' := hperm.nodup_iff.mp hnd
  simp only [List.nodup_cons, List.mem_append, not_or] at hnd'
  obtain ⟨hs, hl, hr⟩ := h
  intro hv
  rw [hperm.mem_iff, List.mem_cons, List.mem_append] at hu
  rcases hu with rfl | hu | hu
  · rw [hs, Option.some.injEq] at hn
    subst hn
    cases side with
    | left => exact hnd'.1.1 (link_mem hv)
    | right => exact hnd'.1.2 (link_mem hv)
  · exact hnd'.1.1 (hl.child_mem hu hn hv)
  · exact hnd'.1.2 (hr.child_mem hu hn hv)

end Shape

namespace Tree

variable {α : Type}

/-- The link at the place is `l`, and a parent finds `l` on the side of the place. -/
def Leads (t : Tree α) : Place → Link → Prop
  | .root, l => t.root = l
  | .below side s, l => ∃ n, t.nodeAt? s = some n ∧ n.child side = l ∧ n.sideOf l = side

/-- The tree with `l` for the link at the place. -/
def hang (t : Tree α) : Place → Link → Tree α
  | .root, l => { t with root := l }
  | .below side s, l => (t.nodeAt? s).elim t fun n => t.put s (n.withChild side l)

private theorem hang_below (t : Tree α) (side : Side) (s : Slot) (l : Link) :
    t.hang (.below side s) l = (t.nodeAt? s).elim t fun n => t.put s (n.withChild side l) := rfl

theorem nodeAt?_hang_of_ne (t : Tree α) {place : Place} {u : Slot} (h : place.link ≠ some u)
    (l : Link) : (t.hang place l).nodeAt? u = t.nodeAt? u := by
  cases place with
  | root => rfl
  | below side s =>
      have hu : u ≠ s := fun e => h (congrArg some e.symm)
      rw [hang_below]
      cases t.nodeAt? s with
      | none => rfl
      | some n => exact nodeAt?_put_ne hu _

private theorem nodeAt?_hang_below (t : Tree α) (side : Side) (s : Slot) (l : Link) :
    (t.hang (.below side s) l).nodeAt? s = (t.nodeAt? s).map (·.withChild side l) := by
  rw [hang_below]
  cases hs : t.nodeAt? s with
  | none => exact hs
  | some n => exact nodeAt?_put_self hs _

theorem nodeAt?_hang_congr {t t' : Tree α} {u : Slot} (h : t'.nodeAt? u = t.nodeAt? u)
    (place : Place) (l : Link) : (t'.hang place l).nodeAt? u = (t.hang place l).nodeAt? u := by
  by_cases hu : place.link = some u
  · cases place with
    | root => cases hu
    | below side s =>
        obtain rfl := Option.some.inj hu
        rw [nodeAt?_hang_below, nodeAt?_hang_below, h]
  · rw [nodeAt?_hang_of_ne t' hu, nodeAt?_hang_of_ne t hu, h]

private theorem root_hang_below (t : Tree α) (side : Side) (s : Slot) (l : Link) :
    (t.hang (.below side s) l).root = t.root := by
  rw [hang_below]
  cases t.nodeAt? s <;> rfl

theorem root_hang_congr {t t' : Tree α} (h : t'.root = t.root) (place : Place) (l : Link) :
    (t'.hang place l).root = (t.hang place l).root := by
  cases place with
  | root => rfl
  | below side s => rw [root_hang_below, root_hang_below, h]

theorem sameSlots_hang (t : Tree α) (place : Place) (l : Link) :
    Arena.SameSlots t.nodes (t.hang place l).nodes := by
  cases place with
  | root => exact .refl _
  | below side s =>
      rw [hang_below]
      cases hs : t.nodeAt? s with
      | none => exact .refl _
      | some n => exact sameSlots_put hs _

theorem relink_of_leads {t : Tree α} {place : Place} {x : Slot} (h : t.Leads place (some x))
    (new : Link) : t.relink place.link (some x) new = .ok (t.hang place new) := by
  cases place with
  | root => rfl
  | below side s =>
      obtain ⟨n, hs, -, hside⟩ := h
      simp only [Place.link, relink, hang_below, hs, node_of_nodeAt? hs, ok_bind, hside,
        edit_of_nodeAt? _ hs, Option.elim_some]

/-- The shape is stored and hangs at the place. -/
structure Holds (t : Tree α) (place : Place) (sh : Shape α) : Prop where
  stored : sh.Stored t place.link
  leads : t.Leads place sh.link
  nodup : sh.slots.Nodup

/-- The tree `t'` is `t` with another link at the place, apart from the nodes in `slots`. -/
structure Rehung (t : Tree α) (place : Place) (slots : List Slot) (l : Link) (t' : Tree α) :
    Prop where
  root : t'.root = (t.hang place l).root
  outside : ∀ u, u ∉ slots → t'.nodeAt? u = (t.hang place l).nodeAt? u
  same : Arena.SameSlots t.nodes t'.nodes

theorem Holds.parent_notMem {t : Tree α} {place : Place} {sh : Shape α} (h : t.Holds place sh)
    {u : Slot} (hu : u ∈ sh.slots) : place.link ≠ some u := by
  cases place with
  | root => exact fun e => nomatch e
  | below side p =>
      intro hp
      obtain rfl := Option.some.inj hp
      obtain ⟨n, hn, hchild, -⟩ := h.leads
      cases sh with
      | nil => simp at hu
      | node l s x r => exact h.stored.child_ne h.nodup hu hn side hchild

variable {t t₁ : Tree α} {place : Place} {side : Side} {p p₁ q : Shape α} {s : Slot} {x : α}

private theorem Holds.nodup_join (h : t.Holds place (.join side p s x q)) :
    (s ∉ p.slots ∧ s ∉ q.slots) ∧ p.slots.Nodup ∧ ∀ u ∈ q.slots, u ∉ p.slots := by
  have hnd := (Shape.slots_join side p s x q).nodup_iff.mp h.nodup
  rw [List.nodup_cons, List.mem_append, not_or, List.nodup_append] at hnd
  exact ⟨hnd.1, hnd.2.1, fun u hq hp => hnd.2.2.2 u hp u hq rfl⟩

theorem Holds.child (h : t.Holds place (.join side p s x q)) {u : Slot} (hp : p.link = some u) :
    t.Holds (.below side s) p where
  stored := ((Shape.stored_join ..).mp h.stored).2.1
  leads := by
    refine ⟨_, ((Shape.stored_join ..).mp h.stored).1, Node.facing_child .., ?_⟩
    refine Node.facing_sideOf side x place.link _ fun he => ?_
    have hq : u ∈ q.slots := Shape.link_mem (he.symm.trans hp)
    exact h.nodup_join.2.2 u hq (Shape.link_mem hp)
  nodup := h.nodup_join.2.1

private theorem Rehung.nodeAt?_of_notMem {slots : List Slot} {l : Link} {u : Slot}
    (h : t.Rehung place slots l t₁) (hu : u ∉ slots) (hp : place.link ≠ some u) :
    t₁.nodeAt? u = t.nodeAt? u := by
  rw [h.outside u hu, nodeAt?_hang_of_ne t hp]

theorem Holds.replace (h : t.Holds place (.join side p s x q)) (h₁ : p₁.Stored t₁ (some s))
    (hre : t.Rehung (.below side s) p.slots p₁.link t₁) (hslots : p₁.slots = p.slots)
    (hheight : p₁.height = p.height) : t₁.Holds place (.join side p₁ s x q) := by
  obtain ⟨⟨hsp, hsq⟩, -, hapart⟩ := h.nodup_join
  obtain ⟨hs, -, hq⟩ := (Shape.stored_join ..).mp h.stored
  have hperm := Shape.slots_join side p s x q
  have hperm₁ := Shape.slots_join side p₁ s x q
  rw [hslots] at hperm₁
  refine ⟨(Shape.stored_join ..).mpr ⟨?_, h₁, hq.congr fun u hu => ?_⟩, ?_,
    (hperm₁.trans hperm.symm).nodup_iff.mpr h.nodup⟩
  · rw [hre.outside s hsp, nodeAt?_hang_below, hs, Option.map_some, Node.facing_withChild, hheight]
  · have hus : u ≠ s := ne_of_mem_of_not_mem hu hsq
    exact hre.nodeAt?_of_notMem (hapart u hu) (Place.link_below_ne side hus)
  · have hleads := h.leads
    rw [Shape.link_join] at hleads ⊢
    cases place with
    | root => exact (hre.root.trans (root_hang_below ..)).trans hleads
    | below d v =>
        obtain ⟨n, hn, hchild, hside⟩ := hleads
        have hv : v ∉ (Shape.join side p s x q).slots := fun hm => h.parent_notMem hm rfl
        rw [hperm.mem_iff, List.mem_cons, List.mem_append, not_or, not_or] at hv
        refine ⟨n, ?_, hchild, hside⟩
        rw [hre.nodeAt?_of_notMem hv.2.1 (Place.link_below_ne side hv.1), hn]

theorem Rehung.trans_below {t₂ : Tree α} {inner slots : List Slot} {l₁ l : Link}
    (h₁ : t.Rehung (.below side s) inner l₁ t₁) (h₂ : t₁.Rehung place slots l t₂)
    (hs : s ∈ slots) (hinner : ∀ u ∈ inner, u ∈ slots) : t.Rehung place slots l t₂ where
  root := by
    rw [h₂.root]
    exact root_hang_congr (h₁.root.trans (root_hang_below ..)) place l
  outside u hu := by
    rw [h₂.outside u hu]
    have hus : u ≠ s := (ne_of_mem_of_not_mem hs hu).symm
    exact nodeAt?_hang_congr
      (h₁.nodeAt?_of_notMem (fun hm => hu (hinner u hm)) (Place.link_below_ne side hus)) place l
  same := h₁.same.trans h₂.same

end Tree

namespace Path

variable {α : Type}

def place : Path α → Place
  | top => .root
  | step side s _ _ _ _ => .below side s

@[simp] theorem link_place (path : Path α) : path.place.link = path.link := by
  cases path <;> rfl

private theorem mem_of_link {path : Path α} {s : Slot} (h : path.link = some s) :
    s ∈ path.slots := by
  cases path with
  | top => cases h
  | step side u x tilt sibling up =>
      obtain rfl := Option.some.inj h
      exact List.mem_cons_self

private theorem Stored.leads {t : Tree α} {path : Path α} {x : Slot} (h : path.Stored t (some x))
    (hx : x ∉ path.slots) : t.Leads path.place (some x) := by
  cases path with
  | top => exact h
  | step side s row tilt sibling up =>
      simp only [slots, List.mem_cons, List.mem_append, not_or] at hx
      have hne : some x ≠ sibling.link := fun e => hx.2.1 (Shape.link_mem e.symm)
      exact ⟨_, h.1, Node.facing_child .., Node.facing_sideOf side row up.link tilt hne⟩

private theorem Stored.hang {t : Tree α} {path : Path α} {l : Link} (h : path.Stored t l)
    (hnd : path.slots.Nodup) (new : Link) : path.Stored (t.hang path.place new) new := by
  cases path with
  | top => rfl
  | step side s row tilt sibling up =>
      obtain ⟨hs, hsib, hup⟩ := h
      simp only [slots, List.nodup_cons, List.mem_append, not_or] at hnd
      have hother : ∀ u, u ≠ s → (t.hang (.below side s) new).nodeAt? u = t.nodeAt? u :=
        fun u hu => Tree.nodeAt?_hang_of_ne t (Place.link_below_ne side hu) new
      refine ⟨?_, hsib.congr fun u hu => hother u (ne_of_mem_of_not_mem hu hnd.1.1),
        hup.congr (Tree.root_hang_below ..) fun u hu => hother u (ne_of_mem_of_not_mem hu hnd.1.2)⟩
      rw [place, Tree.nodeAt?_hang_below, hs, Option.map_some, Node.facing_withChild]

end Path

namespace Tree

variable {α : Type} {t t' : Tree α} {path : Path α} {sh sh' : Shape α}

theorem relink_stored {x : Slot} (hp : path.Stored t (some x)) (hnd : path.slots.Nodup)
    (hx : x ∉ path.slots) (new : Link) :
    ∃ t', t.relink path.link (some x) new = .ok t' ∧ path.Stored t' new ∧
      Arena.SameSlots t.nodes t'.nodes ∧ ∀ u, u ∉ path.slots → t'.nodeAt? u = t.nodeAt? u := by
  refine ⟨t.hang path.place new, ?_, hp.hang hnd new, sameSlots_hang t _ new, fun u hu => ?_⟩
  · rw [← Path.link_place, relink_of_leads (hp.leads hx)]
  · refine nodeAt?_hang_of_ne t (fun e => hu (Path.mem_of_link ?_)) new
    rwa [← Path.link_place]

theorem Split.holds (h : t.Split path sh) {s : Slot} (hs : sh.link = some s) :
    t.Holds path.place sh where
  stored := by
    rw [Path.link_place]
    exact h.stored
  leads := by
    have habove := h.above
    rw [hs] at habove ⊢
    exact habove.leads (h.not_mem_path (Shape.link_mem hs))
  nodup := (List.nodup_append.mp h.nodup).1

theorem Split.replace (h : t.Split path sh) (h' : sh'.Stored t' path.link)
    (hre : t.Rehung path.place sh.slots sh'.link t') (hslots : sh'.slots = sh.slots) :
    t'.Split path sh' where
  stored := h'
  above := (h.above.hang h.nodup_path sh'.link).congr hre.root fun u hu =>
    hre.outside u fun hm => h.not_mem_path hm hu
  nodup := by
    rw [hslots]
    exact h.nodup

end Tree
end TableIndex
