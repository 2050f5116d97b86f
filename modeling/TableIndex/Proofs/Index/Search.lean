import TableIndex.Proofs.Index.SortedSet

/-!
# What a search reads

Along an index the rows pass from less to equal to greater than any search key, however many of its
values are compared. The rows that a search asks for therefore stand together, from the node where
it starts up to the one where it stops. It hands out those that are visible and counts the others.
-/

namespace TableIndex

open Std

variable {ρ : Type}

namespace Comparison

/-- What the first row of a search satisfies; an equality finds out later where it ends. -/
def opening : Comparison → Comparison
  | eq => ge
  | c => c

private theorem opening_of_ne {c : Comparison} (h : c ≠ eq) : c.opening = c := by
  cases c <;> first | rfl | exact absurd rfl h

theorem accepts_opening {c : Comparison} {o : Ordering} (h : c.accepts o = true) :
    c.opening.accepts o = true := by
  by_cases hc : c = eq
  · subst hc
    rw [accepts, beq_iff_eq] at h
    rw [h]
    rfl
  · rwa [opening_of_ne hc]

end Comparison

namespace Request

def direction : Request → Direction
  | full d => d
  | matching _ _ c => c.direction

/-- The row is one of those asked for. -/
def admits (q : Request) (key : KeyOrder) (src : RowSource ρ) (row : ρ) : Bool :=
  match q with
  | full _ => true
  | matching wanted count c => c.accepts (key.compareTo src row wanted count)

/-- The rows asked for, in the order in which they are read. -/
def selected (q : Request) (key : KeyOrder) (src : RowSource ρ) (rows : List ρ) : List ρ :=
  (q.direction.read rows).filter (q.admits key src)

/-- The rows asked for that the viewer sees. -/
def yield (q : Request) (key : KeyOrder) (src : RowSource ρ) (viewer : Viewer) (rows : List ρ) :
    List ρ :=
  (q.selected key src rows).filter (src.visible viewer)

theorem yield_eq (q : Request) (key : KeyOrder) (src : RowSource ρ) (viewer : Viewer)
    (rows : List ρ) :
    q.yield key src viewer rows =
      (q.direction.read (rows.filter (src.visible viewer))).filter (q.admits key src) := by
  rw [yield, selected, List.filter_comm]
  cases q.direction with
  | forward => rfl
  | backward => rw [Direction.read, Direction.read, List.filter_reverse]

theorem admits_congr (q : Request) (key : KeyOrder) {src src' : RowSource ρ} {row : ρ}
    (h : src'.project row = src.project row) : q.admits key src' row = q.admits key src row := by
  cases q with
  | full d => rfl
  | matching wanted count c =>
      rw [admits, admits, KeyOrder.compareTo_congr key h wanted count]

end Request

namespace Scan

/-- The rows up to and with the `count`-th one that satisfies `p`, or all if there are fewer. -/
def passed (p : ρ → Bool) : Nat → List ρ → List ρ
  | 0, _ => []
  | _ + 1, [] => []
  | count + 1, r :: rows => r :: passed p (if p r then count else count + 1) rows

private theorem passed_of_hidden {p : ρ → Bool} {rows : List ρ} (h : ∀ r ∈ rows, p r = false)
    (count : Nat) : passed p (count + 1) rows = rows := by
  induction rows with
  | nil => rfl
  | cons r rows ih =>
      rw [passed, h r (by simp), if_neg (by simp), ih fun r hr => h r (by simp [hr])]

private theorem passed_append {p : ρ → Bool} {hidden : List ρ} (h : ∀ r ∈ hidden, p r = false)
    {r : ρ} (hr : p r = true) (rest : List ρ) (count : Nat) :
    passed p (count + 1) (hidden ++ r :: rest) = hidden ++ r :: passed p count rest := by
  induction hidden with
  | nil => rw [List.nil_append, passed, if_pos hr, List.nil_append]
  | cons u hidden ih =>
      rw [List.cons_append, passed, h u (by simp), if_neg (by simp),
        ih fun r hr => h r (by simp [hr]), List.cons_append]

private theorem seen_eq_nil {src : RowSource ρ} {viewer : Viewer} {nodes : List (Slot × ρ)}
    (h : seen src viewer nodes = []) :
    ∀ r ∈ nodes.map Prod.snd, src.visible viewer r = false := by
  simpa [seen, List.filter_eq_nil_iff] using h

variable {s : Scan ρ} {src : RowSource ρ} {before ahead rest : List (Slot × ρ)}

private theorem next_ahead (h : s.walk.Ahead src before ahead rest) :
    ∃ s', s.next src = .ok ((seen src s.viewer ahead).head?, s') := by
  rcases nextWithin_ahead h (Walk.length_lt_reach h) with ⟨hnone, s', hrun, -⟩ |
    ⟨hidden, e, ahead', s', rfl, hseen, hv, hrun, -⟩
  · exact ⟨s', by rw [next, hrun, hnone]; rfl⟩
  · exact ⟨s', by rw [next, hrun, seen_middle hv, hseen]; rfl⟩

private theorem pull_skipped (h : s.walk.Ahead src before ahead rest) (count : Nat) :
    ∃ s', pull src count s = .ok ((seen src s.viewer ahead).take count, s') ∧
      s'.skipped = s.skipped + (passed (src.visible s.viewer) count (ahead.map Prod.snd)).countP
        fun r => !src.visible s.viewer r := by
  induction count generalizing s before ahead with
  | zero => exact ⟨s, by simp [pull], by simp [passed]⟩
  | succ count ih =>
      rcases nextWithin_ahead h (Walk.length_lt_reach h) with ⟨hnone, s', hrun, -, -, hskipped⟩ |
        ⟨hidden, e, ahead', s', rfl, hseen, hv, hrun, hc, -, hahead, hskipped⟩
      · have hhidden := seen_eq_nil hnone
        refine ⟨s', by rw [pull, next, hrun, hnone]; rfl, ?_⟩
        rw [passed_of_hidden hhidden, List.countP_eq_length.mpr (by simpa using hhidden), hskipped,
          List.length_map]
      · obtain ⟨s'', hpull, hskipped'⟩ := ih hahead
        have hhidden := seen_eq_nil hseen
        rw [hc.viewer] at hpull hskipped'
        refine ⟨s'', ?_, ?_⟩
        · rw [pull, next, hrun, ok_bind, seen_middle hv, hseen, List.nil_append,
            List.take_succ_cons]
          simp only [hpull, ok_bind]
          rfl
        · rw [List.map_append, List.map_cons, passed_append hhidden hv, List.countP_append,
            List.countP_cons_of_neg (by simp [hv]),
            List.countP_eq_length.mpr (by simpa using hhidden), hskipped', hskipped,
            List.length_map]
          omega

end Scan

namespace Index

variable {x : Index ρ} {src : RowSource ρ} {rows : List ρ}

/-- A direction reads the row `a` before the row `b`. -/
def Precedes (x : Index ρ) (src : RowSource ρ) (d : Direction) (a b : ρ) : Prop :=
  match d with
  | .forward => x.place src a b = .lt
  | .backward => x.place src b a = .lt

theorem Lists.precedes (h : x.Lists src rows) (d : Direction) {sh : Shape ρ}
    (hsh : x.tree.HasShape sh) :
    (sh.listed (Walk.side d)).Pairwise fun a b => x.Precedes src d a.2 b.2 := by
  rw [← List.pairwise_map (f := Prod.snd) (R := x.Precedes src d), h.read_eq d hsh]
  cases d with
  | forward => exact h.sorted
  | backward => exact List.pairwise_reverse.mpr h.sorted

theorem opening_mono {c : Comparison} {a b : ρ} (h : x.Precedes src c.direction a b)
    (wanted : List Value) (count : Nat)
    (ha : c.opening.accepts (x.key.compareTo src a wanted count) = true) :
    c.opening.accepts (x.key.compareTo src b wanted count) = true := by
  have hmono : ∀ {a b}, x.place src a b = .lt →
      (x.key.compareTo src a wanted count = .gt → x.key.compareTo src b wanted count = .gt) ∧
        (x.key.compareTo src b wanted count = .lt → x.key.compareTo src a wanted count = .lt) :=
    fun hab => KeyOrder.compareTo_mono (key_le_of_place_lt hab) wanted count
  cases c with
  | eq =>
      simp only [Comparison.opening, Comparison.accepts, bne_iff_ne] at ha ⊢
      exact fun hb => ha ((hmono h).2 hb)
  | ge =>
      simp only [Comparison.opening, Comparison.accepts, bne_iff_ne] at ha ⊢
      exact fun hb => ha ((hmono h).2 hb)
  | gt =>
      simp only [Comparison.opening, Comparison.accepts, beq_iff_eq] at ha ⊢
      exact (hmono h).1 ha
  | le =>
      simp only [Comparison.opening, Comparison.accepts, bne_iff_ne] at ha ⊢
      exact fun hb => ha ((hmono h).1 hb)
  | lt =>
      simp only [Comparison.opening, Comparison.accepts, beq_iff_eq] at ha ⊢
      exact (hmono h).2 ha

private theorem compareTo_keyed (row : ρ) (wanted : List Value) (count : Nat) (c : Comparison) :
    x.key.compareTo src row (Bound.keyed wanted count c).key (Bound.keyed wanted count c).count =
      x.key.compareTo src row wanted count :=
  x.key.compareTo_take src row wanted count

private theorem Lists.start_split (h : x.Lists src rows) {sh : Shape ρ} (hsh : x.tree.HasShape sh)
    (wanted : List Value) (count : Nat) (c : Comparison) :
    ∃ before after, sh.listed (Walk.side c.direction) = before ++ after ∧
      x.start src (.keyed wanted count c) c = .ok (after.head?.map Prod.fst) ∧
      (∀ e ∈ before, c.opening.accepts (x.key.compareTo src e.2 wanted count) = false) ∧
      ∀ e ∈ after, c.opening.accepts (x.key.compareTo src e.2 wanted count) = true := by
  have hmono := (h.precedes c.direction hsh).imp fun hab => opening_mono hab wanted count
  simp only [start, compareTo_keyed]
  cases c with
  | eq => exact hsh.boundary_split .left hmono
  | ge => exact hsh.boundary_split .left hmono
  | gt => exact hsh.boundary_split .left hmono
  | le => exact hsh.boundary_split .right hmono
  | lt => exact hsh.boundary_split .right hmono

private theorem Lists.beyond_equal (h : x.Lists src rows) {w : Walk ρ} (hindex : w.index = x)
    {before ahead rest : List (Slot × ρ)} (hahead : w.Ahead src before ahead rest)
    (hdirection : w.bound.direction = .forward)
    (hrest : ∀ e ∈ rest, w.index.key.compareTo src e.2 w.bound.key w.bound.count ≠ .lt) :
    ∀ e ∈ rest, w.index.key.compareTo src e.2 w.bound.key w.bound.count = .gt := by
  cases rest with
  | nil => simp
  | cons d rest =>
      have hd : w.index.key.compareTo src d.2 w.bound.key w.bound.count = .gt := by
        have hne := (hahead.stops d (by simp)).2
        have hnlt := hrest d (by simp)
        cases hc : w.index.key.compareTo src d.2 w.bound.key w.bound.count <;> simp_all
      obtain ⟨sh, hsh, hlist⟩ := hahead.listed
      subst hindex
      have hsorted := h.precedes w.bound.direction hsh
      rw [hlist, hdirection, List.pairwise_append, List.pairwise_append,
        List.pairwise_cons] at hsorted
      intro e he
      rcases List.mem_cons.mp he with rfl | he
      · exact hd
      · have hlt : w.index.place src d.2 e.2 = .lt := hsorted.2.1.2.1.1 e he
        exact (KeyOrder.compareTo_mono (key_le_of_place_lt hlt) _ _).1 hd

theorem Lists.ahead_accepted (h : x.Lists src rows) {l : Link} {wanted : List Value} {count : Nat}
    {c : Comparison} {before ahead rest : List (Slot × ρ)}
    (hahead : Walk.Ahead ⟨x, l, .keyed wanted count c⟩ src before ahead rest)
    (hopening : ∀ e ∈ ahead ++ rest,
      c.opening.accepts (x.key.compareTo src e.2 wanted count) = true) :
    (∀ e ∈ ahead, c.accepts (x.key.compareTo src e.2 wanted count) = true) ∧
      ∀ e ∈ rest, c.accepts (x.key.compareTo src e.2 wanted count) = false := by
  by_cases hc : c = .eq
  · -- an equality has stopped in front of the first greater row
    subst hc
    have hgt := h.beyond_equal rfl hahead rfl fun e he => by
      have hge := hopening e (List.mem_append_right _ he)
      simpa [Comparison.opening, Comparison.accepts, compareTo_keyed] using hge
    constructor
    · intro e he
      have heq := hahead.admits rfl e he
      simp only [compareTo_keyed] at heq
      rw [heq]
      rfl
    · intro e he
      have hgt' := hgt e he
      simp only [compareTo_keyed] at hgt'
      rw [hgt']
      rfl
  · have hne : (Bound.keyed wanted count c).isEquality = false := by
      simpa [Bound.isEquality, Bound.keyed] using hc
    obtain rfl := hahead.rest_eq_nil hne
    rw [Comparison.opening_of_ne hc] at hopening
    exact ⟨fun e he => hopening e (List.mem_append_left _ he), by simp⟩

private theorem Lists.search_ahead (h : x.Lists src rows) (wanted : List Value) (count : Nat)
    (c : Comparison) :
    ∃ l before ahead rest, x.start src (.keyed wanted count c) c = .ok l ∧
      Walk.Ahead ⟨x, l, .keyed wanted count c⟩ src before ahead rest ∧
      ahead.map Prod.snd = (Request.matching wanted count c).selected x.key src rows := by
  obtain ⟨sh, hsh, -⟩ := h.shape
  obtain ⟨before, after, hlist, hstart, hbefore, hafter⟩ := h.start_split hsh wanted count c
  obtain ⟨ahead, rest, rfl, hahead⟩ :=
    Walk.exists_ahead_of_listed hsh src (.keyed wanted count c) hlist
  refine ⟨_, before, ahead, rest, hstart, hahead, ?_⟩
  obtain ⟨haccepted, hrefused⟩ := h.ahead_accepted hahead hafter
  let admits : Slot × ρ → Bool := fun e => c.accepts (x.key.compareTo src e.2 wanted count)
  have hnone : before.filter admits = [] := by
    rw [List.filter_eq_nil_iff]
    intro e he hadmits
    have hopening := Comparison.accepts_opening hadmits
    rw [hbefore e he] at hopening
    cases hopening
  have hrest : rest.filter admits = [] := by
    rw [List.filter_eq_nil_iff]
    intro e he
    rw [show admits e = false from hrefused e he]
    exact Bool.false_ne_true
  have hfilter : (sh.listed (Walk.side c.direction)).filter admits = ahead := by
    rw [hlist, List.filter_append, List.filter_append, hnone, hrest,
      List.filter_eq_self.mpr haccepted, List.append_nil, List.nil_append]
  rw [Request.selected, show Request.direction (.matching wanted count c) = c.direction from rfl,
    ← h.read_eq c.direction hsh, List.filter_map]
  exact congrArg (List.map Prod.snd) hfilter.symm

theorem Lists.answer_selected (h : x.Lists src rows) (viewer : Viewer) (q : Request) :
    ∃ s before ahead rest, x.answer src viewer q = .ok s ∧ s.walk.Ahead src before ahead rest ∧
      s.viewer = viewer ∧ s.skipped = 0 ∧ ahead.map Prod.snd = q.selected x.key src rows := by
  cases q with
  | full d =>
      obtain ⟨w, ahead, hwalk, hahead, hread⟩ := h.walk_ahead d
      refine ⟨⟨w, viewer, none, 0⟩, [], ahead, [], ?_, hahead, rfl, rfl, ?_⟩
      · rw [answer, scan, hwalk]
        rfl
      · exact hread.trans (List.filter_eq_self.mpr fun _ _ => rfl).symm
  | matching wanted count c =>
      obtain ⟨l, before, ahead, rest, hstart, hahead, hselected⟩ := h.search_ahead wanted count c
      refine ⟨⟨⟨x, l, .keyed wanted count c⟩, viewer, none, 0⟩, before, ahead, rest, ?_, hahead,
        rfl, rfl, hselected⟩
      rw [answer, search, hstart]
      rfl

theorem Lists.answer_yield (h : x.Lists src rows) (viewer : Viewer) (q : Request) :
    ∃ s s', x.answer src viewer q = .ok s ∧
      s.drain src = .ok (q.yield x.key src viewer rows, s') := by
  obtain ⟨s, before, ahead, rest, hanswer, hahead, rfl, -, hselected⟩ :=
    h.answer_selected viewer q
  obtain ⟨s', hdrain⟩ := Scan.drain_ahead hahead
  rw [Scan.seen, hselected] at hdrain
  exact ⟨s, s', hanswer, hdrain⟩

/-- The rows of the index are `rows`, and every scan reads what is asked for among them. -/
structure Yields (key : KeyOrder) (src : RowSource ρ) (x : Index ρ) (rows : List ρ) : Prop where
  sorted : rows.Pairwise fun a b => key.place src a b = .lt
  drain : ∀ viewer q, ∃ s s', x.answer src viewer q = .ok s ∧
    s.drain src = .ok (q.yield key src viewer rows, s')
  /-- After any number of rows, the scan has counted those passed that it did not hand out. -/
  pull : ∀ viewer (q : Request) count, ∃ s s', x.answer src viewer q = .ok s ∧
    s.pull src count = .ok ((q.yield key src viewer rows).take count, s') ∧
    s'.skipped = (Scan.passed (src.visible viewer) count (q.selected key src rows)).countP
      fun r => !src.visible viewer r
  lookup : ∀ viewer wanted count c, x.lookup src viewer wanted count c =
    .ok ((Request.matching wanted count c).yield key src viewer rows).head?
  endRow : ∀ viewer d,
    x.endRow src viewer d = .ok ((Request.full d).yield key src viewer rows).head?

private theorem Lists.first_yield (h : x.Lists src rows) (viewer : Viewer) (q : Request) :
    (do return (← (← x.answer src viewer q).next src).1) =
      Except.ok (ε := Fault) (q.yield x.key src viewer rows).head? := by
  obtain ⟨s, before, ahead, rest, hanswer, hahead, rfl, -, hselected⟩ :=
    h.answer_selected viewer q
  obtain ⟨s', hnext⟩ := Scan.next_ahead hahead
  rw [hanswer, ok_bind, hnext, Scan.seen, hselected]
  rfl

/-- Whatever the calls were that built an index, its scans read the rows that these have left, each
one once and in order, as far as they are asked for and visible. -/
theorem built_yields [Inhabited ρ] {config : Config} {S : Set ρ} (h : Built config src x S) :
    ∃ rows, (∀ r, r ∈ rows ↔ r ∈ S) ∧ Yields config.key src x rows := by
  obtain ⟨rfl, rows, hlists, hmem⟩ := h.lists
  refine ⟨rows, hmem, ?_⟩
  constructor
  case sorted => exact hlists.sorted
  case drain => exact hlists.answer_yield
  case pull =>
    intro viewer q count
    obtain ⟨s, before, ahead, rest, hanswer, hahead, rfl, hskipped, hselected⟩ :=
      hlists.answer_selected viewer q
    obtain ⟨s', hpull, hcounted⟩ := Scan.pull_skipped hahead count
    rw [Scan.seen, hselected] at hpull
    rw [hskipped, hselected, Nat.zero_add] at hcounted
    exact ⟨s, s', hanswer, hpull, hcounted⟩
  case lookup =>
    intro viewer wanted count c
    exact hlists.first_yield viewer (.matching wanted count c)
  case endRow =>
    intro viewer d
    exact hlists.first_yield viewer (.full d)

theorem built_yields_hidden :
    ∃ (config : Config) (src : RowSource NumberedRow) (x : Index NumberedRow)
      (S : Set NumberedRow), x.size = 3 ∧
      (∀ viewer, src.visible viewer ⟨2, ⟨[.boolean true]⟩⟩ = false) ∧
      ∃ rows, (∀ r, r ∈ rows ↔ r ∈ S) ∧ Yields config.key src x rows := by
  have hcreate : create ⟨"flags", 0, [⟨0, .descending, .last⟩], false, false, false, false⟩ none =
      Except.ok (⟨_, .empty⟩ : Index NumberedRow) := rfl
  have h₀ : Built _ (.committed none) _ _ := .create hcreate
  have h₁ := h₀.added (show insert _ _ none ⟨2, ⟨[.boolean true]⟩⟩ = .ok (.ok true, _) from rfl)
  have h₂ := h₁.added (show insert _ _ none ⟨1, ⟨[.boolean true]⟩⟩ = .ok (.ok true, _) from rfl)
  have h₃ := h₂.added (show insert _ _ none ⟨3, ⟨[.null]⟩⟩ = .ok (.ok true, _) from rfl)
  have h₄ : Built _ { RowSource.committed none with visible := fun _ row => row.rowId != 2 } _ _ :=
    h₃.changed fun _ _ => ⟨rfl, rfl, rfl⟩
  exact ⟨_, _, _, _, rfl, fun _ => rfl, built_yields h₄⟩

end Index
end TableIndex
