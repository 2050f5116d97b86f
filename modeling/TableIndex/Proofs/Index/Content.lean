import TableIndex.Index.Basic
import TableIndex.Proofs.Index.KeyOrder
import TableIndex.Proofs.Tree.Runs

/-!
# The content of an index

The rows of an index stand in strict order of their places. An insertion puts a row in its place or
leaves the index as it was, and a deletion takes the row out that stands in the same place. A unique
index looks at all rows with the key of a new one.
-/

namespace TableIndex

open Std

/-- The rows of the shape in order. -/
def Shape.rows {α : Type} (sh : Shape α) : List α := (sh.listed .right).map Prod.snd

namespace Index

variable {ρ : Type} {x : Index ρ} {src : RowSource ρ} {rows : List ρ}

/-- The index holds these rows, each one before the next. -/
structure Lists (x : Index ρ) (src : RowSource ρ) (rows : List ρ) : Prop where
  shape : ∃ sh : Shape ρ, x.tree.HasShape sh ∧ sh.rows = rows
  sorted : rows.Pairwise fun a b => x.place src a b = .lt

instance transCmp_place (x : Index ρ) (src : RowSource ρ) : TransCmp (x.place src) :=
  KeyOrder.transCmp_place x.key src

theorem place_self (x : Index ρ) (src : RowSource ρ) (a : ρ) : x.place src a a = .eq :=
  ReflCmp.compare_self

theorem place_swap (x : Index ρ) (src : RowSource ρ) (a b : ρ) :
    x.place src a b = (x.place src b a).swap := OrientedCmp.eq_swap

theorem key_le_of_place_lt {a b : ρ} (h : x.place src a b = .lt) :
    (x.key.compare src a b).isLE = true := by
  apply KeyOrder.compare_isLE_of_place
  rw [show x.key.place src a b = .lt from h]
  rfl

theorem Lists.nodup (h : x.Lists src rows) : rows.Nodup := by
  refine h.sorted.imp ?_
  rintro a b hlt rfl
  rw [place_self] at hlt
  exact Ordering.noConfusion hlt

/-- A source that answers alike for the rows held lists them alike. -/
theorem Lists.congr_source (h : x.Lists src rows) {src' : RowSource ρ}
    (hsame : ∀ r ∈ rows, src'.project r = src.project r ∧ src'.rowId r = src.rowId r ∧
      src'.versionId r = src.versionId r) : x.Lists src' rows := by
  refine ⟨h.shape, h.sorted.imp_of_mem ?_⟩
  intro a b ha hb hlt
  obtain ⟨hpa, hra, hva⟩ := hsame a ha
  obtain ⟨hpb, hrb, hvb⟩ := hsame b hb
  exact (KeyOrder.place_congr x.key hpa hpb hra hrb hva hvb).trans hlt

/-- Some live node of the index holds the row. -/
def Holds (x : Index ρ) (row : ρ) : Prop := ∃ s, x.tree.row (some s) = .ok row

theorem Lists.holds (h : x.Lists src rows) {row : ρ} (hrow : row ∈ rows) : x.Holds row := by
  obtain ⟨⟨sh, hsh, rfl⟩, -⟩ := h
  obtain ⟨⟨s, r⟩, hm, rfl⟩ := List.mem_map.mp hrow
  obtain ⟨before, after, hlist⟩ := List.append_of_mem hm
  exact ⟨s, (Tree.neighbor_listed hsh hlist).1⟩

theorem place_ne_lt_mono (row : ρ) {a b : ρ} (h : x.place src a b = .lt)
    (ha : (x.place src a row != .lt) = true) : (x.place src b row != .lt) = true := by
  simp only [bne_iff_ne] at ha ⊢
  exact fun hb => ha (TransCmp.lt_trans h hb)

private theorem key_ne_lt_mono (row : ρ) {a b : ρ} (h : x.place src a b = .lt)
    (ha : (x.key.compare src a row != .lt) = true) :
    (x.key.compare src b row != .lt) = true := by
  simp only [bne_iff_ne] at ha ⊢
  exact fun hb => ha (TransCmp.lt_of_isLE_of_lt (key_le_of_place_lt h) hb)

theorem findFirst_listed {sh : Shape ρ} (h : x.tree.HasShape sh)
    (hsorted : sh.rows.Pairwise fun a b => x.place src a b = .lt) {p : ρ → Bool}
    (hmono : ∀ a b, x.place src a b = .lt → p a = true → p b = true) :
    ∃ before after, sh.listed .right = before ++ after ∧
      x.tree.findFirst p = .ok (after.head?.map Prod.fst) ∧
      (∀ e ∈ before, p e.2 = false) ∧ ∀ e ∈ after, p e.2 = true := by
  apply h.boundary_split .left
  rw [Shape.rows, List.pairwise_map] at hsorted
  exact hsorted.imp fun hlt => hmono _ _ hlt

private theorem claimedFrom_listed {sh : Shape ρ} (h : x.tree.HasShape sh) (writer : Option Viewer)
    (row : ρ) (before : List (Slot × ρ)) {after : List (Slot × ρ)} {fuel : Nat}
    (hlist : sh.listed .right = before ++ after) (hfuel : after.length ≤ fuel)
    (hsorted : (after.map Prod.snd).Pairwise fun a b => x.place src a b = .lt)
    (hafter : ∀ e ∈ after, x.key.compare src e.2 row ≠ .lt) :
    x.claimedFrom src writer row fuel (after.head?.map Prod.fst) =
      .ok (after.any fun e => x.key.compare src e.2 row == .eq && counts src writer e.2) := by
  induction after generalizing before fuel with
  | nil => simp [claimedFrom]
  | cons e after ih =>
      obtain ⟨s, r⟩ := e
      obtain ⟨fuel, rfl⟩ : ∃ f, fuel = f + 1 := ⟨fuel - 1, by simp at hfuel; omega⟩
      obtain ⟨hrow, hnext⟩ := Tree.neighbor_listed h hlist
      simp only [List.map_cons, List.pairwise_cons] at hsorted
      simp only [List.head?_cons, Option.map_some, claimedFrom, hrow, ok_bind, List.any_cons]
      by_cases hr : x.key.compare src r row = .eq
      · simp only [hr, ne_eq, not_true_eq_false, if_false, beq_self_eq_true, Bool.true_and]
        by_cases hcounts : counts src writer r = true
        · simp [hcounts]
        · rw [if_neg hcounts, show x.tree.next (some s) = _ from hnext, ok_bind,
            ih (before ++ [(s, r)]) (by simpa using hlist) (by simp at hfuel; omega)
              hsorted.2 fun e he => hafter e (by simp [he])]
          simp [hcounts]
      · have hgt : x.key.compare src r row = .gt := by
          have := hafter (s, r) (by simp)
          cases hc : x.key.compare src r row <;> simp_all
        have hnone : ∀ e ∈ after, x.key.compare src e.2 row ≠ .eq := by
          intro e he heq
          have hle := key_le_of_place_lt (hsorted.1 e.2 (List.mem_map_of_mem he))
          rw [TransCmp.congr_right heq, hgt] at hle
          exact Bool.noConfusion hle
        simp only [hr, ne_eq, not_false_eq_true, if_true, pure_eq_ok]
        rw [hgt, show (Ordering.gt == Ordering.eq) = false from rfl, Bool.false_and, Bool.false_or]
        congr 1
        symm
        rw [List.any_eq_false]
        intro e he
        simp [hnone e he]

private theorem claimed_eq {sh : Shape ρ} (h : x.tree.HasShape sh)
    (hsorted : sh.rows.Pairwise fun a b => x.place src a b = .lt) (writer : Option Viewer)
    (row : ρ) :
    x.claimed src writer row =
      .ok (sh.rows.any fun r => x.key.compare src r row == .eq && counts src writer r) := by
  obtain ⟨before, after, hlist, hfind, hbefore, hafter⟩ :=
    findFirst_listed h hsorted (fun a b => key_ne_lt_mono row)
  have hle := h.length_le_reach
  rw [← Shape.length_listed .right, hlist, List.length_append] at hle
  rw [Shape.rows, hlist, List.map_append, List.pairwise_append] at hsorted
  rw [claimed, hfind, ok_bind, claimedFrom_listed h writer row before hlist (by omega) hsorted.2.1
    fun e he => by simpa using hafter e he, Shape.rows, hlist, List.map_append, List.any_append,
    List.any_map, List.any_map]
  have hnone : (before.any fun e =>
      x.key.compare src e.2 row == .eq && counts src writer e.2) = false := by
    rw [List.any_eq_false]
    intro e he
    have := hbefore e he
    simp only [bne_eq_false_iff_eq] at this
    simp [this]
  simp only [Function.comp_def, hnone, Bool.false_or]

/-- The gap for a row lies between the rows before it and those after it, and the row itself can
only stand just before the gap. -/
theorem gap_listed {sh : Shape ρ} (h : x.tree.HasShape sh)
    (hsorted : sh.rows.Pairwise fun a b => x.place src a b = .lt) (row : ρ) :
    ∃ gap path, x.tree.gap (fun existing => x.place src row existing) = .ok gap ∧
      Gap.At gap path ∧ path.plug .nil = sh ∧ path.Counts 0 ∧
      x.holdsAt src gap row = .ok (sh.rows.any fun r => x.place src r row == .eq) ∧
      (∀ e ∈ path.beyond .left, (x.place src e.2 row).isLE = true) ∧
      ∀ e ∈ path.beyond .right, x.place src row e.2 = .lt := by
  have hmono : (sh.listed .right).Pairwise fun a b =>
      x.place src row b.2 ≠ .lt → x.place src row a.2 ≠ .lt := by
    rw [Shape.rows, List.pairwise_map] at hsorted
    exact hsorted.imp fun hab hb ha => hb (TransCmp.lt_trans ha hab)
  obtain ⟨gap, path, hgap, hat, rfl, hc, hleft, hright⟩ := h.gap_at hmono
  have hle : ∀ e ∈ path.beyond .left, (x.place src e.2 row).isLE = true := by
    intro e he
    rw [place_swap, Ordering.isLE_swap, Ordering.isGE_iff_ne_lt]
    exact hleft e he
  refine ⟨gap, path, hgap, hat, rfl, hc, ?_, hle, hright⟩
  have hlist : (path.plug .nil).listed .right =
      (path.beyond .left).reverse ++ path.beyond .right := by
    rw [Path.listed_plug]
    rfl
  have hnone : (path.beyond .right).any (fun e => x.place src e.2 row == .eq) = false := by
    rw [List.any_eq_false]
    intro e he
    rw [place_swap, hright e he]
    decide
  rw [Shape.rows, hlist, List.any_map, List.any_append]
  simp only [Function.comp_def, hnone, Bool.or_false, List.any_reverse]
  unfold holdsAt
  rw [hat.before]
  cases hb : path.beyond .left with
  | nil => rfl
  | cons d rest =>
      obtain ⟨s, r⟩ := d
      rw [Shape.rows, hlist, hb, List.reverse_cons, List.append_assoc, List.map_append,
        List.pairwise_append] at hsorted
      have hrest : rest.any (fun e => x.place src e.2 row == .eq) = false := by
        rw [List.any_eq_false]
        intro e he heq
        have hlt := hsorted.2.2 e.2 (List.mem_map_of_mem (List.mem_reverse.mpr he)) r (by simp)
        rw [TransCmp.congr_left (beq_iff_eq.mp heq)] at hlt
        exact hleft (s, r) (by simp [hb]) hlt
      have hlist' : (path.plug .nil).listed .right =
          rest.reverse ++ (s, r) :: path.beyond .right := by
        rw [hlist, hb, List.reverse_cons, List.append_assoc]
        rfl
      have hrow := (Tree.neighbor_listed h hlist').1
      simp [hrow, hrest]

/-- A unique index that holds these rows refuses the row. -/
def Refuses (x : Index ρ) (src : RowSource ρ) (rows : List ρ) (writer : Option Viewer) (row : ρ) :
    Prop :=
  x.config.isUnique = true ∧ x.key.hasNull src row = false ∧
    ∃ r ∈ rows, x.key.compare src r row = .eq ∧ counts src writer r = true

private theorem refuses_listed {sh : Shape ρ} (h : x.tree.HasShape sh)
    (hsorted : sh.rows.Pairwise fun a b => x.place src a b = .lt) (writer : Option Viewer)
    (row : ρ) :
    ∃ b, x.refuses src writer row = .ok b ∧ (b = true ↔ x.Refuses src sh.rows writer row) := by
  unfold refuses Refuses
  by_cases hu : (x.config.isUnique && !x.key.hasNull src row) = true
  · rw [if_pos hu, claimed_eq h hsorted]
    refine ⟨_, rfl, ?_⟩
    simp only [Bool.and_eq_true, Bool.not_eq_true'] at hu
    simp [List.any_eq_true, hu.1, hu.2]
  · rw [if_neg hu]
    refine ⟨false, rfl, ?_⟩
    simp only [Bool.and_eq_true, Bool.not_eq_true', not_and] at hu
    simp only [Bool.false_eq_true, false_iff]
    rintro ⟨h₁, h₂, -⟩
    exact hu h₁ h₂

private theorem pairwise_middle {R : ρ → ρ → Prop} {before after : List ρ} {row : ρ}
    (hsorted : (before ++ after).Pairwise R) (hbefore : ∀ r ∈ before, R r row)
    (hafter : ∀ r ∈ after, R row r) : (before ++ row :: after).Pairwise R := by
  rw [List.pairwise_append] at hsorted
  rw [List.pairwise_append, List.pairwise_cons]
  refine ⟨hsorted.1, ⟨hafter, hsorted.2.1⟩, fun r hr u hu => ?_⟩
  rcases List.mem_cons.mp hu with rfl | hu
  · exact hbefore r hr
  · exact hsorted.2.2 r hr u hu

variable [Inhabited ρ]

/-- An insertion finds the row there, refuses it, has no room, or puts it in its place. -/
theorem insert_cases (h : x.Lists src rows) (writer : Option Viewer) (row : ρ)
    (grants : Allocator) :
    (∃ r ∈ rows, x.place src r row = .eq) ∧ x.insert src writer row grants = .ok (.ok false, x) ∨
    (∀ r ∈ rows, x.place src r row ≠ .eq) ∧
      (x.Refuses src rows writer row ∧ x.insert src writer row grants =
          .ok (.error (.duplicateKey x.config.name (x.key.keyOf src row).render), x) ∨
        ¬x.Refuses src rows writer row ∧
          ((∃ requested limit, x.tree.Full grants requested limit ∧
              x.insert src writer row grants = .ok (.error (.full requested limit), x)) ∨
            ∃ tree before after, x.insert src writer row grants = .ok (.ok true, { x with tree }) ∧
              rows = before ++ after ∧
              Lists { x with tree } src (before ++ row :: after))) := by
  obtain ⟨⟨sh, hsh, rfl⟩, hsorted⟩ := h
  obtain ⟨gap, path, hgap, hat, rfl, hc, hholds, hleft, hright⟩ := gap_listed hsh hsorted row
  obtain ⟨refused, hrefuses, hiff⟩ := refuses_listed hsh hsorted writer row
  have hrun : x.insert src writer row grants = (do
      if (path.plug .nil).rows.any fun r => x.place src r row == .eq then return (.ok false, x)
      else if refused then
        return (.error (.duplicateKey x.config.name (x.key.keyOf src row).render), x)
      else
        let attached ← x.tree.attach gap row grants
        return (attached.1.map fun _ => true, { x with tree := attached.2 })) := by
    rw [insert, hgap, ok_bind, hholds, ok_bind, hrefuses, ok_bind]
  rw [hrun]
  by_cases hany : ((path.plug .nil).rows.any fun r => x.place src r row == .eq) = true
  · left
    rw [if_pos hany]
    refine ⟨?_, rfl⟩
    simpa [List.any_eq_true] using hany
  · right
    rw [if_neg hany]
    refine ⟨by simpa [List.any_eq_true] using hany, ?_⟩
    by_cases hr : refused = true
    · left
      rw [if_pos hr]
      exact ⟨hiff.mp hr, rfl⟩
    · right
      rw [if_neg hr]
      refine ⟨fun hrefuses => hr (hiff.mpr hrefuses), ?_⟩
      rcases Tree.attach_at hsh hc hat row grants with ⟨s, t', sh', hattach, hsh', hlist, -⟩ |
        ⟨requested, limit, hattach, hfull⟩
      · right
        have hrows : (path.plug .nil).rows = (path.beyond .left).reverse.map Prod.snd ++
            (path.beyond .right).map Prod.snd := by
          rw [Shape.rows, Path.listed_plug]
          simp [Side.other]
        refine ⟨t', (path.beyond .left).reverse.map Prod.snd, (path.beyond .right).map Prod.snd,
          by rw [hattach]; rfl, hrows, ⟨sh', hsh', by simp [Shape.rows, hlist]⟩, ?_⟩
        refine pairwise_middle (hrows ▸ hsorted) (fun r hr => ?_) fun r hr => ?_
        · have hne : x.place src r row ≠ .eq := by
            simp only [List.any_eq_true, beq_iff_eq, not_exists, not_and] at hany
            exact hany r (by rw [hrows]; exact List.mem_append_left _ hr)
          obtain ⟨e, he, rfl⟩ := List.mem_map.mp hr
          have hle := hleft e (List.mem_reverse.mp he)
          exact (Ordering.isLE_iff_eq_lt_or_eq_eq.mp hle).resolve_right hne
        · obtain ⟨e, he, rfl⟩ := List.mem_map.mp hr
          exact hright e he
      · left
        exact ⟨requested, limit, hfull, by rw [hattach]; rfl⟩

/-- A deletion finds no row in the place, or takes the one there out. -/
theorem delete_cases (h : x.Lists src rows) (row : ρ) :
    (∀ r ∈ rows, x.place src r row ≠ .eq) ∧ x.delete src row = .ok (false, x) ∨
      ∃ tree before r after, x.delete src row = .ok (true, { x with tree }) ∧
        rows = before ++ r :: after ∧ x.place src r row = .eq ∧
        Lists { x with tree } src (before ++ after) := by
  obtain ⟨⟨sh, hsh, rfl⟩, hsorted⟩ := h
  obtain ⟨before, after, hlist, hfind, hbefore, hafter⟩ :=
    findFirst_listed hsh hsorted (fun a b => place_ne_lt_mono row)
  have hne : ∀ e ∈ before, x.place src e.2 row ≠ .eq := by
    intro e he heq
    have := hbefore e he
    rw [heq] at this
    exact Bool.noConfusion this
  have hsorted' := hsorted
  rw [Shape.rows, hlist, List.map_append, List.pairwise_append] at hsorted'
  cases after with
  | nil =>
      left
      refine ⟨?_, ?_⟩
      · intro r hr
        rw [Shape.rows, hlist, List.append_nil] at hr
        obtain ⟨e, he, rfl⟩ := List.mem_map.mp hr
        exact hne e he
      · simp only [delete, Tree.erase, Tree.find, hfind, List.head?_nil, Option.map_none, ok_bind,
          pure_eq_ok]
        rfl
  | cons e after =>
      obtain ⟨s, r⟩ := e
      have hrow := (Tree.neighbor_listed hsh hlist).1
      have hlast : ∀ e ∈ after, x.place src r e.2 = .lt := fun e he =>
        (List.pairwise_cons.mp hsorted'.2.1).1 e.2 (List.mem_map_of_mem he)
      by_cases hr : x.place src r row = .eq
      · right
        obtain ⟨node, tree, sh', -, hremove, hsh', hout⟩ := Tree.remove_listed hsh hlist
        have hrows : sh'.rows = before.map Prod.snd ++ after.map Prod.snd := by
          rcases hout with ⟨-, hout⟩ | ⟨-, u, y, rest, rfl, hout⟩ <;> simp [Shape.rows, hout]
        refine ⟨tree, before.map Prod.snd, r, after.map Prod.snd, ?_, ?_, hr, ⟨sh', hsh', hrows⟩,
          ?_⟩
        · simp only [delete, Tree.erase, Tree.find, hfind, List.head?_cons, Option.map_some,
            ok_bind, hrow, hr, if_true, pure_eq_ok, hremove]
          rfl
        · simp [Shape.rows, hlist]
        · refine hsorted.sublist ?_
          rw [Shape.rows, hlist, List.map_append, List.map_cons]
          exact (List.sublist_cons_self _ _).append_left _
      · left
        refine ⟨?_, ?_⟩
        · intro r' hr' heq
          rw [Shape.rows, hlist, List.map_append, List.map_cons, List.mem_append,
            List.mem_cons] at hr'
          rcases hr' with hr' | rfl | hr'
          · obtain ⟨e, he, rfl⟩ := List.mem_map.mp hr'
            exact hne e he heq
          · exact hr heq
          · obtain ⟨e, he, rfl⟩ := List.mem_map.mp hr'
            have hlt := hlast e he
            rw [TransCmp.congr_right heq] at hlt
            have := hafter (s, r) (by simp)
            rw [hlt] at this
            exact Bool.noConfusion this
        · simp only [delete, Tree.erase, Tree.find, hfind, List.head?_cons, Option.map_some,
            ok_bind, hrow, hr, if_false, pure_eq_ok]
          rfl

theorem clear_lists (h : x.Lists src rows) : x.clear.Lists src [] := by
  obtain ⟨⟨sh, hsh, -⟩, -⟩ := h
  exact ⟨⟨.nil, Tree.clear_hasShape hsh, rfl⟩, List.Pairwise.nil⟩

theorem create_lists {config : Config} {columns : Option Nat} (src : RowSource ρ)
    (h : create config columns = .ok x) : x.Lists src [] ∧ x.config = config := by
  unfold create at h
  cases hv : config.validate with
  | error e => rw [hv, error_bind] at h; cases h
  | ok u =>
      rw [hv, ok_bind] at h
      split at h
      · cases h
      · simp only [pure_eq_ok, Except.ok.injEq] at h
        subst h
        exact ⟨⟨⟨.nil, Tree.ofCapacity_hasShape _ false, rfl⟩, List.Pairwise.nil⟩, rfl⟩

/-- An index that operations on an empty one have built, while the source answered alike for every
row that the index held. -/
inductive Reachable : RowSource ρ → Index ρ → Prop
  | create {config : Config} {columns : Option Nat} {x : Index ρ} (src : RowSource ρ) :
      create config columns = .ok x → Reachable src x
  | insert {src : RowSource ρ} {x x' : Index ρ} {writer : Option Viewer} {row : ρ}
      {grants : Allocator} {answer : Except Error Bool} :
      Reachable src x → x.insert src writer row grants = .ok (answer, x') → Reachable src x'
  | delete {src : RowSource ρ} {x x' : Index ρ} {row : ρ} {found : Bool} :
      Reachable src x → x.delete src row = .ok (found, x') → Reachable src x'
  | clear {src : RowSource ρ} {x : Index ρ} : Reachable src x → Reachable src x.clear
  | change {src src' : RowSource ρ} {x : Index ρ} :
      Reachable src x →
      (∀ row, x.Holds row → src'.project row = src.project row ∧ src'.rowId row = src.rowId row ∧
        src'.versionId row = src.versionId row) → Reachable src' x

theorem Reachable.lists (h : Reachable src x) : ∃ rows, x.Lists src rows := by
  induction h with
  | create src h => exact ⟨[], (create_lists src h).1⟩
  | @insert src x x' writer row grants answer _ hrun ih =>
      obtain ⟨rows, h⟩ := ih
      have hcases := insert_cases h writer row grants
      rw [hrun] at hcases
      simp only [Except.ok.injEq, Prod.mk.injEq] at hcases
      rcases hcases with ⟨-, -, rfl⟩ | ⟨-, ⟨-, -, rfl⟩ | ⟨-, ⟨_, _, -, -, rfl⟩ |
        ⟨tree, before, after, ⟨-, rfl⟩, -, h'⟩⟩⟩
      · exact ⟨rows, h⟩
      · exact ⟨rows, h⟩
      · exact ⟨rows, h⟩
      · exact ⟨_, h'⟩
  | @delete src x x' row found _ hrun ih =>
      obtain ⟨rows, h⟩ := ih
      have hcases := delete_cases h row
      rw [hrun] at hcases
      simp only [Except.ok.injEq, Prod.mk.injEq] at hcases
      rcases hcases with ⟨-, -, rfl⟩ | ⟨tree, before, r, after, ⟨-, rfl⟩, -, -, h'⟩
      · exact ⟨rows, h⟩
      · exact ⟨_, h'⟩
  | clear _ ih =>
      obtain ⟨rows, h⟩ := ih
      exact ⟨[], clear_lists h⟩
  | change _ hsame ih =>
      obtain ⟨rows, h⟩ := ih
      exact ⟨rows, h.congr_source fun r hr => hsame r (h.holds hr)⟩

end Index
end TableIndex
