import TableIndex.Proofs.Index.Paging
import TableIndex.Proofs.Tree.Verification

/-!
# Indexes as sorted sets

Two rows are the same to an index when their keys are equal and so are both of their identities.
Whatever the calls were that built an index, it holds the set of the rows that were added and not
removed since, and nothing else can be told from it: the walks list that set in order, and the
answers are those of membership.
-/

namespace TableIndex

open Std

variable {ρ : Type}

/-- The rows of an index in the order in which a direction reads them. -/
def Direction.read (d : Direction) (rows : List ρ) : List ρ :=
  match d with
  | .forward => rows
  | .backward => rows.reverse

namespace KeyOrder

variable {key : KeyOrder} {src : RowSource ρ} {a b : ρ}

/-- The rows have equal keys and the same identities. -/
def Same (key : KeyOrder) (src : RowSource ρ) (a b : ρ) : Prop :=
  key.compare src a b = .eq ∧ src.rowId a = src.rowId b ∧ src.versionId a = src.versionId b

theorem place_eq_iff : key.place src a b = .eq ↔ key.Same src a b := by
  simp only [place, Same, Ordering.then_eq_eq, Std.compare_eq_iff_eq]

end KeyOrder

namespace Index

variable {x : Index ρ} {src : RowSource ρ} {rows : List ρ}

theorem Lists.read_eq (h : x.Lists src rows) (d : Direction) {sh : Shape ρ}
    (hsh : x.tree.HasShape sh) : (sh.listed (Walk.side d)).map Prod.snd = d.read rows := by
  obtain ⟨sh', hsh', rfl⟩ := h.shape
  obtain rfl := hsh.unique hsh'
  cases d with
  | forward => rfl
  | backward =>
      have hreverse : sh.listed .left = (sh.listed .right).reverse := Shape.listed_other .right sh
      rw [show Walk.side .backward = .left from rfl, hreverse, List.map_reverse]
      rfl

private theorem Lists.contains_eq (h : x.Lists src rows) (row : ρ) :
    x.contains src row = .ok (rows.any fun r => x.place src r row == .eq) := by
  obtain ⟨sh, hsh, rfl⟩ := h.shape
  obtain ⟨before, after, hlist, hfind, hbefore, hafter⟩ :=
    findFirst_listed hsh h.sorted (fun a b => place_ne_lt_mono row)
  have hsorted := h.sorted
  have hnone : (before.map Prod.snd).any (fun r => x.place src r row == .eq) = false := by
    rw [List.any_map, List.any_eq_false]
    intro e he heq
    have hlt := hbefore e he
    rw [beq_iff_eq.mp heq] at hlt
    cases hlt
  rw [Shape.rows, hlist, List.map_append] at hsorted
  rw [Shape.rows, hlist, List.map_append, List.any_append, hnone, Bool.false_or, contains,
    Tree.find, hfind, ok_bind]
  cases after with
  | nil => rfl
  | cons e after =>
      obtain ⟨s, r⟩ := e
      have hrow := (Tree.neighbor_listed hsh hlist).1
      -- behind the first row that is not before `row` all rows are after it
      have hrest : (after.map Prod.snd).any (fun r => x.place src r row == .eq) = false := by
        rw [List.any_map, List.any_eq_false]
        intro e he heq
        rw [List.pairwise_append, List.map_cons, List.pairwise_cons] at hsorted
        have hlt := hsorted.2.1.1 e.2 (List.mem_map_of_mem he)
        rw [TransCmp.congr_right (beq_iff_eq.mp heq)] at hlt
        have hge := hafter (s, r) (by simp)
        rw [hlt] at hge
        cases hge
      simp only [List.head?_cons, Option.map_some, hrow, ok_bind, pure_eq_ok, List.map_cons,
        List.any_cons, hrest, Bool.or_false]
      cases hr : x.place src r row <;> rfl

private theorem Lists.size_eq (h : x.Lists src rows) : x.size = rows.length := by
  obtain ⟨sh, hsh, rfl⟩ := h.shape
  rw [size, ← hsh.length_slots, Shape.rows, List.length_map, Shape.length_listed]

private theorem Lists.verify (h : x.Lists src rows) :
    ∃ height, x.verify src = .ok (.ok ⟨rows.length, height⟩) := by
  obtain ⟨sh, hsh, hrows⟩ := h.shape
  have hsorted : (sh.listed .right).Pairwise fun a b => x.place src a.2 b.2 ≠ .gt := by
    have := h.sorted
    rw [← hrows, Shape.rows, List.pairwise_map] at this
    exact this.imp fun hlt => by rw [hlt]; decide
  exact ⟨sh.height, by rw [← h.size_eq]; exact hsh.verify hsorted⟩

private theorem Lists.eq_of_mem_iff {y : Index ρ} {rows' : List ρ} (h : x.Lists src rows)
    (h' : y.Lists src rows') (hconfig : y.config = x.config) (hmem : ∀ r, r ∈ rows ↔ r ∈ rows') :
    rows = rows' := by
  have hsorted : rows'.Pairwise fun a b => x.place src a b = .lt := by
    have := h'.sorted
    simpa only [place, key, hconfig] using this
  have : Irrefl fun a b => x.place src a b = .lt :=
    ⟨fun a hlt => by rw [place_self] at hlt; cases hlt⟩
  have : Antisymm fun a b => x.place src a b = .lt :=
    ⟨fun a b hab hba => by rw [place_swap, hba] at hab; cases hab⟩
  exact h.sorted.eq_of_mem_iff hsorted hmem

private theorem Lists.mem_without {before after : List ρ} {r u : ρ}
    (h : x.Lists src (before ++ r :: after)) :
    u ∈ before ++ after ↔ u ∈ before ++ r :: after ∧ ¬x.place src u r = .eq := by
  have hsorted := h.sorted
  rw [List.pairwise_append, List.pairwise_cons] at hsorted
  simp only [List.mem_append, List.mem_cons]
  constructor
  · rintro (hu | hu)
    · exact ⟨.inl hu, by simp [hsorted.2.2 u hu r (by simp)]⟩
    · refine ⟨.inr (.inr hu), fun hur => ?_⟩
      have hlt := hsorted.2.1.1 u hu
      rw [OrientedCmp.eq_symm hur] at hlt
      cases hlt
  · rintro ⟨hu | rfl | hu, hne⟩
    · exact .inl hu
    · exact absurd (place_self x src u) hne
    · exact .inr hu

private theorem Lists.length_eq_ncard {S : Set ρ} (h : x.Lists src rows)
    (hmem : ∀ r, r ∈ rows ↔ r ∈ S) :
    rows.length = S.ncard := by
  classical
  have hS : S = (rows.toFinset : Set ρ) := by
    ext r
    simp [hmem]
  rw [hS, Set.ncard_coe_finset, List.toFinset_card_of_nodup h.nodup]

/-- The first rows of a walk over all rows. -/
def rawRows (x : Index ρ) (src : RowSource ρ) (d : Direction) (count : Nat) : Checked (List ρ) := do
  return (← Walk.pull src count (← x.walk d)).1

theorem Lists.walk_ahead (h : x.Lists src rows) (d : Direction) :
    ∃ w ahead, x.walk d = .ok w ∧ w.Ahead src [] ahead [] ∧ ahead.map Prod.snd = d.read rows := by
  obtain ⟨sh, hsh, -⟩ := h.shape
  have horigin : x.origin d = .ok ((sh.listed (Walk.side d)).head?.map Prod.fst) := by
    cases d with
    | forward => exact Tree.endmost_listed hsh .right
    | backward => exact Tree.endmost_listed hsh .left
  obtain ⟨ahead, rest, hsplit, hahead⟩ :=
    Walk.exists_ahead_of_listed hsh src (.full d) (List.nil_append _).symm
  obtain rfl := hahead.rest_eq_nil rfl
  rw [List.append_nil] at hsplit
  subst hsplit
  exact ⟨_, _, by rw [walk, horigin]; rfl, hahead, h.read_eq d hsh⟩

private theorem Lists.rawRows_eq (h : x.Lists src rows) (d : Direction) (count : Nat) :
    x.rawRows src d count = .ok ((d.read rows).take count) := by
  obtain ⟨w, ahead, hwalk, hahead, hread⟩ := h.walk_ahead d
  obtain ⟨w', hpull⟩ := Walk.pull_ahead hahead count
  rw [rawRows, hwalk, ok_bind, hpull, hread]
  rfl

variable [Inhabited ρ]

/-- The index has come about by calls on an empty one, and `S` are the rows that a call has added
and none has removed since. The source may change, but it answers alike for the rows in the
index. -/
inductive Built (config : Config) : RowSource ρ → Index ρ → Set ρ → Prop
  | create {src : RowSource ρ} {columns : Option Nat} {x : Index ρ} :
      Index.create config columns = .ok x → Built config src x ∅
  | added {src : RowSource ρ} {x x' : Index ρ} {S : Set ρ} {writer : Option Viewer} {row : ρ}
      {grants : Allocator} :
      Built config src x S → x.insert src writer row grants = .ok (.ok true, x') →
      Built config src x' (S ∪ {row})
  | kept {src : RowSource ρ} {x x' : Index ρ} {S : Set ρ} {writer : Option Viewer} {row : ρ}
      {grants : Allocator} {answer : Except Error Bool} :
      Built config src x S → x.insert src writer row grants = .ok (answer, x') →
      answer ≠ .ok true → Built config src x' S
  | deleted {src : RowSource ρ} {x x' : Index ρ} {S : Set ρ} {row : ρ} {found : Bool} :
      Built config src x S → x.delete src row = .ok (found, x') →
      Built config src x' {r ∈ S | ¬config.key.Same src r row}
  | cleared {src : RowSource ρ} {x : Index ρ} {S : Set ρ} :
      Built config src x S → Built config src x.clear ∅
  | changed {src src' : RowSource ρ} {x : Index ρ} {S : Set ρ} :
      Built config src x S →
      (∀ r ∈ S, src'.project r = src.project r ∧ src'.rowId r = src.rowId r ∧
        src'.versionId r = src.versionId r) → Built config src' x S

variable {config : Config} {S : Set ρ}

/-- The index lists the rows that the calls left. -/
theorem Built.lists (h : Built config src x S) :
    x.config = config ∧ ∃ rows, x.Lists src rows ∧ ∀ r, r ∈ rows ↔ r ∈ S := by
  induction h with
  | @create src columns x hcreate =>
      obtain ⟨hlists, hconfig⟩ := create_lists src hcreate
      exact ⟨hconfig, [], hlists, by simp⟩
  | @added src x x' S writer row grants _ hrun ih =>
      obtain ⟨hconfig, rows, h, hmem⟩ := ih
      have hcases := insert_cases h writer row grants
      rw [hrun] at hcases
      simp only [Except.ok.injEq, Prod.mk.injEq, reduceCtorEq, false_and, and_false, exists_const,
        false_or, Bool.true_eq_false, true_and] at hcases
      obtain ⟨-, -, tree, before, after, rfl, rfl, h'⟩ := hcases
      refine ⟨hconfig, _, h', fun r => ?_⟩
      rw [Set.mem_union, Set.mem_singleton_iff, ← hmem]
      simp only [List.mem_append, List.mem_cons]
      tauto
  | @kept src x x' S writer row grants answer _ hrun hanswer ih =>
      obtain ⟨hconfig, rows, h, hmem⟩ := ih
      have hcases := insert_cases h writer row grants
      rw [hrun] at hcases
      simp only [Except.ok.injEq, Prod.mk.injEq] at hcases
      rcases hcases with ⟨-, -, rfl⟩ | ⟨-, ⟨-, -, rfl⟩ | ⟨-, ⟨_, _, -, -, rfl⟩ |
        ⟨tree, before, after, ⟨htrue, -⟩, -⟩⟩⟩
      · exact ⟨hconfig, rows, h, hmem⟩
      · exact ⟨hconfig, rows, h, hmem⟩
      · exact ⟨hconfig, rows, h, hmem⟩
      · exact absurd htrue hanswer
  | @deleted src x x' S row found _ hrun ih =>
      obtain ⟨hconfig, rows, h, hmem⟩ := ih
      have hsame : ∀ r, config.key.Same src r row ↔ x.place src r row = .eq := by
        intro r
        rw [place, key, hconfig, KeyOrder.place_eq_iff]
      have hcases := delete_cases h row
      rw [hrun] at hcases
      simp only [Except.ok.injEq, Prod.mk.injEq] at hcases
      rcases hcases with ⟨hnone, -, rfl⟩ | ⟨tree, before, r, after, ⟨-, rfl⟩, rfl, heq, h'⟩
      · refine ⟨hconfig, rows, h, fun r => ?_⟩
        rw [Set.mem_sep_iff, ← hmem, hsame]
        exact ⟨fun hr => ⟨hr, hnone r hr⟩, fun hr => hr.1⟩
      · refine ⟨hconfig, before ++ after, h', fun u => ?_⟩
        rw [Set.mem_sep_iff, ← hmem, hsame, TransCmp.congr_right (OrientedCmp.eq_symm heq)]
        exact h.mem_without
  | cleared _ ih =>
      obtain ⟨hconfig, rows, h, -⟩ := ih
      exact ⟨hconfig, [], clear_lists h, by simp⟩
  | changed _ hsame ih =>
      obtain ⟨hconfig, rows, h, hmem⟩ := ih
      exact ⟨hconfig, rows, h.congr_source fun r hr => hsame r ((hmem r).mp hr), hmem⟩

private theorem Lists.insert_answers {rows : List ρ} (h : x.Lists src rows)
    (writer : Option Viewer) (row : ρ) (grants : Allocator) :
    ∃ answer x', x.insert src writer row grants = .ok (answer, x') ∧
      (answer = .ok false ↔ ∃ r ∈ rows, x.place src r row = .eq) ∧ (answer ≠ .ok true → x' = x) ∧
      ((¬∃ r ∈ rows, x.place src r row = .eq) → ¬x.Refuses src rows writer row →
        answer = .ok true ∨ ∃ requested limit, x.tree.Full grants requested limit ∧
          answer = .error (.full requested limit)) := by
  rcases insert_cases h writer row grants with ⟨hfound, hrun⟩ | ⟨hnone, hcases⟩
  · exact ⟨_, x, hrun, iff_of_true rfl hfound, fun _ => rfl, fun hnot => absurd hfound hnot⟩
  · have hnot : ¬∃ r ∈ rows, x.place src r row = .eq := by simpa using hnone
    rcases hcases with ⟨hrefuses, hrun⟩ |
      ⟨-, ⟨requested, limit, hfull, hrun⟩ | ⟨tree, before, after, hrun, -⟩⟩
    · exact ⟨_, x, hrun, iff_of_false (by simp) hnot, fun _ => rfl,
        fun _ hadmits => absurd hrefuses hadmits⟩
    · exact ⟨_, x, hrun, iff_of_false (by simp) hnot, fun _ => rfl,
        fun _ _ => .inr ⟨requested, limit, hfull, rfl⟩⟩
    · exact ⟨_, _, hrun, iff_of_false (by simp) hnot, fun hne => absurd rfl hne,
        fun _ _ => .inl rfl⟩

/-- The index answers as the sorted set `S` whose listing is `rows`. -/
structure Refines (config : Config) (src : RowSource ρ) (x : Index ρ) (S : Set ρ)
    (rows : List ρ) : Prop where
  sorted : rows.Pairwise fun a b => config.key.place src a b = .lt
  mem_iff : ∀ r, r ∈ rows ↔ r ∈ S
  walks : ∀ d count, x.rawRows src d count = .ok ((d.read rows).take count)
  /-- No other calls that left the same rows lead to other walks. -/
  determined : ∀ y, Built config src y S → ∀ d count, y.rawRows src d count = x.rawRows src d count
  size_eq : x.size = S.ncard
  verified : ∃ height, x.verify src = .ok (.ok ⟨S.ncard, height⟩)
  contains : ∀ row, ∃ found, x.contains src row = .ok found ∧
    (found = true ↔ ∃ r ∈ S, config.key.Same src r row)
  delete : ∀ row, ∃ found x', x.delete src row = .ok (found, x') ∧
    (found = true ↔ ∃ r ∈ S, config.key.Same src r row)
  /-- Only a row that is not there is added, and then it is unless a unique index refuses it or the
  tree is full. -/
  insert : ∀ writer row grants, ∃ answer x', x.insert src writer row grants = .ok (answer, x') ∧
    (answer = .ok false ↔ ∃ r ∈ S, config.key.Same src r row) ∧ (answer ≠ .ok true → x' = x) ∧
    ((¬∃ r ∈ S, config.key.Same src r row) → ¬x.Refuses src rows writer row → answer = .ok true ∨
      ∃ requested limit, x.tree.Full grants requested limit ∧
        answer = .error (.full requested limit))
  /-- Below the largest number of slots the space can always be addressed. -/
  insert_addressable : ∀ writer row, S.ncard < maxSlots →
    (¬∃ r ∈ S, config.key.Same src r row) → ¬x.Refuses src rows writer row →
    ∃ x', x.insert src writer row = .ok (.ok true, x')

/-- Whatever the calls were, an index is the sorted set of the rows that they left. -/
theorem refines_sorted_set (h : Built config src x S) : ∃ rows, Refines config src x S rows := by
  obtain ⟨rfl, rows, hlists, hmem⟩ := h.lists
  have hcard := hlists.length_eq_ncard hmem
  have hsame : ∀ row, (∃ r ∈ rows, x.place src r row = .eq) ↔
      ∃ r ∈ S, x.config.key.Same src r row := by
    intro row
    simp only [hmem, place, key, KeyOrder.place_eq_iff]
  refine ⟨rows, ?_⟩
  constructor
  case sorted => exact hlists.sorted
  case mem_iff => exact hmem
  case walks => exact hlists.rawRows_eq
  case determined =>
    intro y hy d count
    obtain ⟨hconfig, rows', hlists', hmem'⟩ := hy.lists
    obtain rfl := hlists.eq_of_mem_iff hlists' hconfig fun r => (hmem r).trans (hmem' r).symm
    rw [hlists.rawRows_eq, hlists'.rawRows_eq]
  case size_eq => exact hcard ▸ hlists.size_eq
  case verified => exact hcard ▸ hlists.verify
  case contains =>
    intro row
    refine ⟨_, hlists.contains_eq row, ?_⟩
    rw [← hsame, List.any_eq_true]
    simp only [beq_iff_eq]
  case delete =>
    intro row
    rcases delete_cases hlists row with ⟨hnone, hrun⟩ | ⟨tree, before, r, after, hrun, rfl, heq, -⟩
    · refine ⟨false, x, hrun, ?_⟩
      rw [← hsame]
      simpa using hnone
    · refine ⟨true, _, hrun, ?_⟩
      rw [← hsame]
      exact iff_of_true rfl ⟨r, by simp, heq⟩
  case insert =>
    intro writer row grants
    rw [← hsame]
    exact hlists.insert_answers writer row grants
  case insert_addressable =>
    intro writer row hroom hnot hadmits
    rw [← hsame] at hnot
    obtain ⟨answer, x', hrun, -, -, hanswer⟩ := hlists.insert_answers writer row .addressable
    rcases hanswer hnot hadmits with rfl | ⟨requested, limit, hfull, -⟩
    · exact ⟨x', hrun⟩
    · rw [← hcard, ← hlists.size_eq] at hroom
      exact absurd hroom (Nat.not_lt.mpr hfull.maxSlots_le)

theorem refines_sorted_set_equal_keys :
    ∃ (config : Config) (x : Index NumberedRow) (S : Set NumberedRow), x.size = 2 ∧
      ⟨2, ⟨[.boolean true]⟩⟩ ∈ S ∧ ∃ rows, Refines config (.committed none) x S rows := by
  have hcreate : create ⟨"flags", 0, [⟨0, .descending, .last⟩], false, false, false, false⟩ none =
      Except.ok (⟨_, .empty⟩ : Index NumberedRow) := rfl
  have h₀ : Built _ (.committed none) _ _ := .create hcreate
  have h₁ := h₀.added (show insert _ _ none ⟨2, ⟨[.boolean true]⟩⟩ = .ok (.ok true, _) from rfl)
  have h₂ := h₁.added (show insert _ _ none ⟨1, ⟨[.boolean true]⟩⟩ = .ok (.ok true, _) from rfl)
  have h₃ := h₂.added (show insert _ _ none ⟨1, ⟨[.null]⟩⟩ = .ok (.ok true, _) from rfl)
  have h₄ := h₃.deleted (show delete _ _ ⟨1, ⟨[.boolean true]⟩⟩ = .ok (true, _) from rfl)
  refine ⟨_, _, _, rfl, ?_, refines_sorted_set h₄⟩
  simp [KeyOrder.Same, RowSource.committed]

end Index
end TableIndex
