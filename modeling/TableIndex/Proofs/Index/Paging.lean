import TableIndex.Proofs.Index.Walk

/-!
# Paging

A client reads a scan in batches: it takes some rows, keeps the cursor, and resumes the scan from
there. A scan that was resumed remembers none of the rows before it. As long as it hands out none
itself, its cursor therefore leads back to the start, and the batches after that begin anew.
-/

namespace TableIndex

variable {ρ : Type}

/-- The scans that can be asked of an index. -/
inductive Request
  | full (direction : Direction)
  | matching (key : List Value) (count : Nat) (comparison : Comparison)

namespace Request

def bound : Request → Bound
  | full direction => .full direction
  | matching key count comparison => .keyed key count comparison

end Request

namespace Index

variable {x : Index ρ} {src : RowSource ρ} {rows : List ρ}

/-- The scan that is asked for. -/
def answer (x : Index ρ) (src : RowSource ρ) (viewer : Viewer) : Request → Checked (Scan ρ)
  | .full direction => x.scan viewer direction
  | .matching key count comparison => x.search src viewer key count comparison

/-- Takes batches of the given sizes, the first one from a scan and each other one from the scan
that the cursor of the one before resumes. -/
def pages (x : Index ρ) (src : RowSource ρ) (viewer : Viewer) :
    Scan ρ → List Nat → Checked (List (List ρ))
  | _, [] => .ok []
  | s, size :: sizes => do
      let (batch, s) ← s.pull src size
      return batch :: (← pages x src viewer (← x.resume src viewer s.cursor) sizes)

private theorem exists_ahead {sh : Shape ρ} (h : x.tree.HasShape sh) (src : RowSource ρ) (b : Bound)
    {l : Link} (hl : ∀ s, l = some s → s ∈ sh.slots) :
    ∃ before ahead rest, Walk.Ahead ⟨x, l, b⟩ src before ahead rest := by
  obtain ⟨before, tail, hlist, hhead⟩ : ∃ before tail,
      sh.listed (Walk.side b.direction) = before ++ tail ∧ l = tail.head?.map Prod.fst := by
    cases l with
    | none => exact ⟨_, [], (List.append_nil _).symm, rfl⟩
    | some s =>
        obtain ⟨r, hr⟩ := (Shape.mem_slots (Walk.side b.direction)).mp (hl s rfl)
        obtain ⟨before, after, hlist⟩ := List.append_of_mem hr
        exact ⟨before, (s, r) :: after, hlist, rfl⟩
  obtain ⟨ahead, rest, rfl, hahead⟩ := Walk.exists_ahead_of_listed h src b hlist
  exact ⟨before, ahead, rest, hhead ▸ hahead⟩

private theorem start_mem {sh : Shape ρ} (h : x.tree.HasShape sh) (src : RowSource ρ) (b : Bound)
    (c : Comparison) :
    ∃ l, x.start src b c = .ok l ∧ ∀ s, l = some s → s ∈ sh.slots := by
  cases c
  · exact h.boundary_mem .left _
  · exact h.boundary_mem .left _
  · exact h.boundary_mem .left _
  · exact h.boundary_mem .right _
  · exact h.boundary_mem .right _

private theorem origin_mem {sh : Shape ρ} (h : x.tree.HasShape sh) (direction : Direction) :
    ∃ l, x.origin direction = .ok l ∧ ∀ s, l = some s → s ∈ sh.slots := by
  have hmem : ∀ side s, (sh.listed side).head?.map Prod.fst = some s → s ∈ sh.slots := by
    intro side s hs
    obtain ⟨⟨u, r⟩, he, rfl⟩ := Option.map_eq_some_iff.mp hs
    exact (Shape.mem_slots side).mpr ⟨r, List.mem_of_mem_head? he⟩
  cases direction
  · exact ⟨_, Tree.endmost_listed h .right, hmem .right⟩
  · exact ⟨_, Tree.endmost_listed h .left, hmem .left⟩

theorem answer_ahead (h : x.Lists src rows) (viewer : Viewer) (q : Request) :
    ∃ s before ahead rest, x.answer src viewer q = .ok s ∧
      s.walk.Ahead src before ahead rest ∧ s.walk.index = x ∧ s.walk.bound = q.bound ∧
      s.viewer = viewer ∧ s.last = none ∧ x.resume src viewer ⟨none, q.bound⟩ = .ok s := by
  obtain ⟨⟨sh, hsh, -⟩, -⟩ := h
  cases q with
  | full direction =>
      obtain ⟨l, hl, hmem⟩ := origin_mem hsh direction
      obtain ⟨before, ahead, rest, hahead⟩ := exists_ahead hsh src (.full direction) hmem
      refine ⟨⟨⟨x, l, .full direction⟩, viewer, none, 0⟩, before, ahead, rest, ?_, hahead, rfl, rfl,
        rfl, rfl, ?_⟩
      · simp [answer, scan, walk, hl]
      · simp [resume, Request.bound, Bound.full, scan, walk, hl]
  | matching key count c =>
      obtain ⟨l, hl, hmem⟩ := start_mem hsh src (.keyed key count c) c
      obtain ⟨before, ahead, rest, hahead⟩ := exists_ahead hsh src (.keyed key count c) hmem
      have hagain : Bound.keyed (Bound.keyed key count c).key (Bound.keyed key count c).count c =
          .keyed key count c := by
        simp [Bound.keyed]
      refine ⟨⟨⟨x, l, .keyed key count c⟩, viewer, none, 0⟩, before, ahead, rest, ?_, hahead, rfl,
        rfl, rfl, rfl, ?_⟩
      · simp [answer, search, hl]
      · have hc : (Bound.keyed key count c).comparison = some c := rfl
        simp only [resume, Request.bound, hc, search, hagain, hl, ok_bind, pure_eq_ok]

private theorem ahead_rows (h : x.Lists src rows) {w : Walk ρ} {before ahead rest : List (Slot × ρ)}
    (hahead : w.Ahead src before ahead rest) (hindex : w.index = x) :
    (ahead.map Prod.snd).Nodup ∧ ∀ r ∈ ahead.map Prod.snd, r ∈ rows := by
  obtain ⟨sh, hsh, hlist⟩ := hahead.listed
  rw [hindex] at hsh
  obtain ⟨sh', hsh', rfl⟩ := h.shape
  obtain rfl := hsh.unique hsh'
  have hperm : (before ++ (ahead ++ rest)).map Prod.snd |>.Perm sh.rows :=
    hlist ▸ (Shape.listed_perm _ sh).map Prod.snd
  rw [List.map_append, List.map_append] at hperm
  have hnd := hperm.nodup_iff.mpr h.nodup
  refine ⟨(List.nodup_append.mp (List.nodup_append.mp hnd).2.1).1, ?_⟩
  intro r hr
  exact hperm.mem_iff.mp (List.mem_append_right _ (List.mem_append_left _ hr))

theorem answer_drain (h : x.Lists src rows) (viewer : Viewer) (q : Request) :
    ∃ s all s', x.answer src viewer q = .ok s ∧ s.drain src = .ok (all, s') ∧ all.Nodup ∧
      ∀ r ∈ all, r ∈ rows ∧ src.visible viewer r = true := by
  obtain ⟨s, before, ahead, rest, hanswer, hahead, hindex, -, hviewer, -, -⟩ :=
    answer_ahead h viewer q
  obtain ⟨s', hdrain⟩ := Scan.drain_ahead hahead
  obtain ⟨hnd, hmem⟩ := ahead_rows h hahead hindex
  rw [hviewer] at hdrain
  refine ⟨s, _, s', hanswer, hdrain, hnd.filter _, ?_⟩
  intro r hr
  obtain ⟨hr, hv⟩ := List.mem_filter.mp hr
  exact ⟨hmem r hr, hv⟩

private theorem after_listed (h : x.Lists src rows) {sh : Shape ρ} (hsh : x.tree.HasShape sh)
    (hrows : sh.rows = rows) (direction : Direction) {before after : List (Slot × ρ)}
    {e : Slot × ρ} (hlist : sh.listed (Walk.side direction) = before ++ e :: after) :
    x.after src e.2 direction = .ok (after.head?.map Prod.fst) := by
  have hsorted := h.sorted
  rw [← hrows, Shape.rows, List.pairwise_map] at hsorted
  have hlist' : sh.listed (Walk.side direction) = (before ++ [e]) ++ after := by simpa using hlist
  cases direction with
  | forward =>
      refine hsh.boundary_of_append .left hlist' ?_ ?_
      · intro a ha
        rw [show Walk.side .forward = .right from rfl] at hlist'
        rw [hlist', List.pairwise_append, List.pairwise_append] at hsorted
        rcases List.mem_append.mp ha with ha | ha
        · simp [hsorted.1.2.2 a ha e (by simp)]
        · obtain rfl := List.mem_singleton.mp ha
          simp [place_self]
      · intro a ha
        rw [show Walk.side .forward = .right from rfl] at hlist
        rw [hlist, List.pairwise_append, List.pairwise_cons] at hsorted
        have hlt := hsorted.2.1.1 a ha
        rw [place_swap, hlt]
        rfl
  | backward =>
      have hreverse : sh.listed .right = (sh.listed .left).reverse := Shape.listed_other .left sh
      rw [show Walk.side .backward = .left from rfl] at hlist hlist'
      refine hsh.boundary_of_append .right hlist' ?_ ?_
      · intro a ha
        rw [hreverse, hlist', List.reverse_append, List.reverse_append, List.pairwise_append,
          List.pairwise_append] at hsorted
        rcases List.mem_append.mp ha with ha | ha
        · have hlt := hsorted.2.1.2.2 e (by simp) a (List.mem_reverse.mpr ha)
          rw [place_swap, hlt]
          rfl
        · obtain rfl := List.mem_singleton.mp ha
          simp [place_self]
      · intro a ha
        rw [hreverse, hlist', List.reverse_append, List.pairwise_append] at hsorted
        simp [hsorted.2.2 a (List.mem_reverse.mpr ha) e (by simp)]

private theorem resume_ahead (h : x.Lists src rows) {s : Scan ρ} (hindex : s.walk.index = x)
    {before passed ahead rest : List (Slot × ρ)} {e : Slot × ρ}
    (hahead : s.walk.Ahead src before (passed ++ e :: ahead) rest) (viewer : Viewer) :
    ∃ s', x.resume src viewer ⟨some e.2, s.walk.bound⟩ = .ok s' ∧
      s'.walk.Ahead src (before ++ (passed ++ [e])) ahead rest ∧ s'.walk.index = x ∧
      s'.walk.bound = s.walk.bound ∧ s'.viewer = viewer ∧ s'.last = none := by
  obtain ⟨⟨sh, hsh, hlist⟩, -, hadmits, hstops⟩ := hahead
  subst hindex
  obtain ⟨sh', hsh', hrows⟩ := h.shape
  obtain rfl := hsh.unique hsh'
  have hlist' : sh.listed (Walk.side s.walk.bound.direction) =
      (before ++ passed) ++ e :: (ahead ++ rest) := by simpa using hlist
  have hafter := after_listed h hsh hrows s.walk.bound.direction hlist'
  refine ⟨⟨⟨s.walk.index, (ahead ++ rest).head?.map Prod.fst, s.walk.bound⟩, viewer, none, 0⟩, ?_,
    ⟨⟨sh, hsh, by simpa using hlist⟩, rfl, ?_, hstops⟩, rfl, rfl, rfl, rfl⟩
  · simp only [resume, hafter, ok_bind, pure_eq_ok]
  · exact fun heq e' he => hadmits heq e' (by simp [he])

/-- Batches of the given sizes out of `all`, the first one from `position` on. After an empty batch
the next one starts anew. -/
def batches (all : List ρ) : Nat → List Nat → List (List ρ)
  | _, [] => []
  | position, size :: sizes =>
      let batch := (all.drop position).take size
      batch :: batches all (if batch.isEmpty then 0 else position + batch.length) sizes

private theorem pages_eq (h : x.Lists src rows) {viewer : Viewer} {q : Request} {first : Scan ρ}
    {before all rest : List (Slot × ρ)} (hfirst : first.walk.Ahead src before all rest)
    (hindex : first.walk.index = x) (hbound : first.walk.bound = q.bound)
    (hviewer : first.viewer = viewer) (hlast : first.last = none)
    (hagain : x.resume src viewer ⟨none, q.bound⟩ = .ok first) (sizes : List Nat) {s : Scan ρ}
    (passed ahead : List (Slot × ρ)) (hall : all = passed ++ ahead)
    (hahead : s.walk.Ahead src (before ++ passed) ahead rest) (hs : first.Continues s)
    (hnone : s.last = none) :
    x.pages src viewer s sizes =
      .ok (batches (Scan.seen src viewer all) (Scan.seen src viewer passed).length sizes) := by
  induction sizes generalizing s passed ahead with
  | nil => rfl
  | cons size sizes ih =>
      obtain ⟨s', hpull, hc, hout⟩ := Scan.pull_ahead hahead size
      have hsv : s.viewer = viewer := hs.viewer.trans hviewer
      have hdrop : (Scan.seen src viewer all).drop (Scan.seen src viewer passed).length =
          Scan.seen src viewer ahead := by
        rw [hall, Scan.seen_append, List.drop_left]
      rw [hsv] at hpull hout
      have hcursor : s'.cursor = ⟨s'.last, q.bound⟩ := by
        rw [Scan.cursor, hc.bound, hs.bound, hbound]
      simp only [pages, hpull, ok_bind, batches, hdrop, hcursor]
      rcases hout with ⟨hnil, hlast'⟩ | ⟨passed', e, ahead', rfl, hlast', hv, htake⟩
      · -- an empty batch leaves no row to resume after
        rw [hlast', hnone, hagain, ok_bind, ih [] all rfl (by simpa using hfirst)
          ⟨rfl, rfl, rfl⟩ hlast, hnil]
        rfl
      · obtain ⟨s'', hresume, hahead'', hindex'', hbound'', hviewer'', hnone''⟩ :=
          resume_ahead h (hs.index.trans hindex) hahead viewer
        rw [hs.bound, hbound] at hresume
        have hseen :
            Scan.seen src viewer (passed' ++ [e]) = Scan.seen src viewer passed' ++ [e.2] :=
          Scan.seen_middle hv passed' []
        have hrest := ih (passed ++ (passed' ++ [e])) ahead' (by simp [hall])
          (by simpa using hahead'') ⟨hindex''.trans hindex.symm, hbound''.trans hs.bound,
            hviewer''.trans hviewer.symm⟩ hnone''
        rw [hlast', hresume, ok_bind, hrest, htake, Scan.seen_append, hseen, List.length_append,
          if_neg (by simp)]
        rfl

/-- Once rows have been read, a batch that comes back empty is not followed by any that asks for
rows. `total` rows can be read, and reading begins at `position`. -/
def Unbroken (total position : Nat) (sizes : List Nat) : Prop :=
  ∀ before size after, sizes = before ++ size :: after → 0 < min (position + before.sum) total →
    size = 0 ∨ total ≤ position + before.sum → ∀ n ∈ after, n = 0

private theorem unbroken_empty {total position : Nat} {size : Nat} {sizes : List Nat}
    (h : Unbroken total position (size :: sizes)) (hpos : 0 < min position total)
    (hempty : size = 0 ∨ total ≤ position) : ∀ n ∈ sizes, n = 0 :=
  h [] size sizes rfl (by simpa using hpos) (by simpa using hempty)

private theorem unbroken_step {total position size : Nat} {sizes : List Nat} (hsize : 0 < size)
    (hpos : position < total) :
    Unbroken total position (size :: sizes) ↔
      Unbroken total (position + min size (total - position)) sizes := by
  constructor
  · intro h before n after hsizes hlt hn
    refine h (size :: before) n after (by rw [hsizes]; rfl) ?_ ?_
    · rw [List.sum_cons]
      omega
    · rw [List.sum_cons]
      omega
  · intro h before n after hsizes hlt hn
    cases before with
    | nil =>
        simp only [List.nil_append, List.cons.injEq] at hsizes
        simp only [List.sum_nil, Nat.add_zero] at hlt hn
        omega
    | cons m before =>
        simp only [List.cons_append, List.cons.injEq] at hsizes
        obtain ⟨rfl, hsizes⟩ := hsizes
        rw [List.sum_cons] at hlt hn
        exact h before n after hsizes (by omega) (by omega)

private theorem unbroken_zero {total : Nat} {sizes : List Nat} :
    Unbroken total 0 (0 :: sizes) ↔ Unbroken total 0 sizes := by
  constructor
  · intro h before n after hsizes hlt hn
    exact h (0 :: before) n after (by rw [hsizes]; rfl) (by simpa using hlt) (by simpa using hn)
  · intro h before n after hsizes hlt hn
    cases before with
    | nil => simp at hlt
    | cons m before =>
        simp only [List.cons_append, List.cons.injEq] at hsizes
        obtain ⟨rfl, hsizes⟩ := hsizes
        exact h before n after hsizes (by simpa using hlt) (by simpa using hn)

private theorem flatten_batches_zeros (all : List ρ) {sizes : List Nat} (h : ∀ n ∈ sizes, n = 0)
    (position : Nat) : (batches all position sizes).flatten = [] := by
  induction sizes generalizing position with
  | nil => rfl
  | cons n sizes ih =>
      obtain rfl := h n (by simp)
      simp [batches, ih fun m hm => h m (by simp [hm])]

private theorem head?_flatten_batches (r : ρ) (all : List ρ) {sizes : List Nat}
    (h : ∃ n ∈ sizes, n ≠ 0) : (batches (r :: all) 0 sizes).flatten.head? = some r := by
  induction sizes with
  | nil => simp at h
  | cons n sizes ih =>
      cases n with
      | zero =>
          have hrest : ∃ n ∈ sizes, n ≠ 0 := by simpa using h
          simpa [batches] using ih hrest
      | succ n => simp [batches]

private theorem flatten_batches_nil (sizes : List Nat) (position : Nat) :
    (batches ([] : List ρ) position sizes).flatten = [] := by
  induction sizes generalizing position with
  | nil => rfl
  | cons n sizes ih => simp [batches, ih]

private theorem flatten_restart_ne {all : List ρ} (hnd : all.Nodup) {position : Nat}
    (hpos : 0 < min position all.length) {sizes : List Nat} (h : ∃ n ∈ sizes, n ≠ 0) (count : Nat) :
    (batches all 0 sizes).flatten ≠ (all.drop position).take count := by
  cases all with
  | nil => simp at hpos
  | cons r all =>
      intro heq
      -- reading anew gives `r` first, but what was due lies behind it
      have hhead := head?_flatten_batches r all h
      rw [heq] at hhead
      have hmem := List.mem_of_mem_take (List.mem_of_mem_head? hhead)
      have hafter : r ∈ all := by
        obtain ⟨k, rfl⟩ : ∃ k, position = k + 1 := ⟨position - 1, by omega⟩
        exact List.mem_of_mem_drop hmem
      exact (List.nodup_cons.mp hnd).1 hafter

private theorem flatten_batches_iff {all : List ρ} (hnd : all.Nodup) (sizes : List Nat)
    (position : Nat) :
    (batches all position sizes).flatten = (all.drop position).take sizes.sum ↔
      Unbroken all.length position sizes := by
  induction sizes generalizing position with
  | nil => simp [batches, Unbroken]
  | cons n sizes ih =>
      rw [batches, List.flatten_cons, List.sum_cons, List.take_add, List.drop_drop]
      by_cases hempty : n = 0 ∨ all.length ≤ position
      · have hbatch : (all.drop position).take n = [] := by
          rcases hempty with rfl | hle
          · rfl
          · rw [List.drop_of_length_le hle, List.take_nil]
        simp only [hbatch, List.isEmpty_nil, if_true, List.nil_append]
        by_cases hpos : 0 < min position all.length
        · by_cases hzero : ∀ m ∈ sizes, m = 0
          · have hsum : sizes.sum = 0 := List.sum_eq_zero_iff_forall_eq_nat.mpr hzero
            simp only [flatten_batches_zeros all hzero, hsum, List.take_zero, true_iff]
            intro before size after hsizes _ _ m hm
            cases before with
            | nil => exact hzero m (by rw [(List.cons.inj hsizes).2]; exact hm)
            | cons k before => exact hzero m (by rw [(List.cons.inj hsizes).2]; simp [hm])
          · push Not at hzero
            refine iff_of_false (flatten_restart_ne hnd (by omega) hzero _) ?_
            intro hun
            obtain ⟨m, hm, hne⟩ := hzero
            exact hne (unbroken_empty hun hpos hempty m hm)
        · cases all with
          | nil => simp [flatten_batches_nil, Unbroken]
          | cons r all =>
              obtain rfl : position = 0 := by simp at hpos; omega
              obtain rfl : n = 0 := by simpa using hempty
              rw [ih 0, unbroken_zero]
      · -- the batch has rows, and reading goes on behind them
        push Not at hempty
        have hlength : ((all.drop position).take n).length = min n (all.length - position) := by
          rw [List.length_take, List.length_drop]
        have hne : ((all.drop position).take n).isEmpty = false := by
          rw [List.isEmpty_eq_false_iff, ← List.length_pos_iff, hlength]
          omega
        have hdrop : all.drop (position + n) =
            all.drop (position + min n (all.length - position)) := by
          by_cases hle : n ≤ all.length - position
          · rw [min_eq_left hle]
          · rw [List.drop_of_length_le (by omega), List.drop_of_length_le (by omega)]
        rw [hne, hlength, hdrop, List.append_cancel_left_eq,
          unbroken_step (Nat.pos_of_ne_zero hempty.1) hempty.2]
        exact ih _

/-- Whatever scan it begins with and whatever the sizes are, paging reads the rows of the
uninterrupted scan in order, each one once and none left out, exactly when no batch that asks for
rows comes after an empty one that was not the first to be read. -/
theorem pages_flatten_iff [Inhabited ρ] (h : Reachable src x) (viewer : Viewer) (q : Request)
    (sizes : List Nat) :
    ∃ s s' all read, x.answer src viewer q = .ok s ∧ s.drain src = .ok (all, s') ∧
      x.pages src viewer s sizes = .ok read ∧ all.Nodup ∧
      (read.flatten = all.take sizes.sum ↔ Unbroken all.length 0 sizes) := by
  obtain ⟨rows, hlists⟩ := h.lists
  obtain ⟨s, before, ahead, rest, hanswer, hahead, hindex, hbound, hviewer, hlast, hagain⟩ :=
    answer_ahead hlists viewer q
  obtain ⟨s', hdrain⟩ := Scan.drain_ahead hahead
  have hpages := pages_eq hlists hahead hindex hbound hviewer hlast hagain sizes [] ahead rfl
    (by simpa using hahead) ⟨rfl, rfl, rfl⟩ hlast
  rw [hviewer] at hdrain
  have hnd : (Scan.seen src viewer ahead).Nodup := (ahead_rows hlists hahead hindex).1.filter _
  exact ⟨s, s', _, _, hanswer, hdrain, hpages, hnd, flatten_batches_iff hnd sizes 0⟩

theorem pages_flatten_iff_three :
    ∃ x : Index NumberedRow, x.size = 3 ∧ ∃ s s' all read,
      x.answer (RowSource.committed none) default (.full .forward) = .ok s ∧
      s.drain (RowSource.committed none) = .ok (all, s') ∧
      x.pages (RowSource.committed none) default s [2, 0, 2] = .ok read ∧ all.Nodup ∧
      (read.flatten = all.take 4 ↔ Unbroken all.length 0 [2, 0, 2]) := by
  have hcreate : create ⟨"flags", 0, [⟨0, .ascending, .first⟩], false, false, false, false⟩ none =
      Except.ok (⟨_, .empty⟩ : Index NumberedRow) := rfl
  have h₀ := Reachable.create (RowSource.committed none) hcreate
  have h₁ := h₀.insert (show insert _ _ none ⟨1, ⟨[.boolean false]⟩⟩ = .ok _ from rfl)
  have h₂ := h₁.insert (show insert _ _ none ⟨2, ⟨[.null]⟩⟩ = .ok _ from rfl)
  have h₃ := h₂.insert (show insert _ _ none ⟨3, ⟨[.boolean true]⟩⟩ = .ok _ from rfl)
  exact ⟨_, rfl, pages_flatten_iff h₃ default (.full .forward) [2, 0, 2]⟩

end Index
end TableIndex
