import TableIndex.Index.Scan
import TableIndex.Proofs.Index.Content

/-!
# Walks and scans of an index

A walk stands somewhere in the listing of the tree in its direction and hands out what is ahead of
it. A scan hands out the visible rows of those, and where it is resumed after one of them, exactly
the rows behind that one are ahead again.
-/

namespace TableIndex

variable {ρ : Type}

/-- The walk has passed the nodes of `before`, will hand out the rows of `ahead` and then stop in
front of `rest`. -/
structure Walk.Ahead (w : Walk ρ) (src : RowSource ρ) (before ahead rest : List (Slot × ρ)) :
    Prop where
  listed : ∃ sh, w.index.tree.HasShape sh ∧
    sh.listed (Walk.side w.bound.direction) = before ++ (ahead ++ rest)
  current : w.current = (ahead ++ rest).head?.map Prod.fst
  admits : w.bound.isEquality = true → ∀ e ∈ ahead,
    w.index.key.compareTo src e.2 w.bound.key w.bound.count = .eq
  stops : ∀ e ∈ rest.head?, w.bound.isEquality = true ∧
    w.index.key.compareTo src e.2 w.bound.key w.bound.count ≠ .eq

namespace Walk

variable {w : Walk ρ} {src : RowSource ρ} {before ahead rest : List (Slot × ρ)}

theorem next_nil (h : w.Ahead src before [] rest) :
    w.next src = .ok (none, { w with current := none }) := by
  obtain ⟨⟨sh, hsh, hlist⟩, hcurrent, -, hstops⟩ := h
  rw [List.nil_append] at hlist hcurrent
  unfold next
  cases rest with
  | nil =>
      obtain ⟨x, current, bound⟩ := w
      obtain rfl : current = none := hcurrent
      rfl
  | cons e rest =>
      obtain ⟨heq, hne⟩ := hstops e (by simp)
      have hrow := (Tree.neighbor_listed (s := e.1) (x := e.2) hsh hlist).1
      simp [hcurrent, hrow, heq, hne]

theorem next_cons {e : Slot × ρ} (h : w.Ahead src before (e :: ahead) rest) :
    ∃ current, w.next src = .ok (some e.2, { w with current }) ∧
      Ahead { w with current } src (before ++ [e]) ahead rest := by
  obtain ⟨⟨sh, hsh, hlist⟩, hcurrent, hadmits, hstops⟩ := h
  obtain ⟨hrow, hnext⟩ := Tree.neighbor_listed (s := e.1) (x := e.2) hsh hlist
  refine ⟨(ahead ++ rest).head?.map Prod.fst, ?_, ?_⟩
  · have hadmit : (w.bound.isEquality &&
        w.index.key.compareTo src e.2 w.bound.key w.bound.count != .eq) = false := by
      cases heq : w.bound.isEquality with
      | false => rfl
      | true => simp [hadmits heq e (by simp)]
    have hhead : w.current = some e.1 := hcurrent
    simp only [next, hhead, hrow, ok_bind, hadmit, Bool.false_eq_true, if_false, hnext, pure_eq_ok]
    rfl
  · exact ⟨⟨sh, hsh, by simpa using hlist⟩, rfl, fun heq e' he => hadmits heq e' (by simp [he]),
      hstops⟩

/-- Only an equality stops in front of rows. -/
theorem Ahead.rest_eq_nil (h : w.Ahead src before ahead rest) (hne : w.bound.isEquality = false) :
    rest = [] := by
  cases rest with
  | nil => rfl
  | cons e rest =>
      have heq := (h.stops e (by simp)).1
      rw [hne] at heq
      cases heq

/-- A walk from some place in the listing on has rows ahead until it stops. -/
theorem exists_ahead_of_listed {x : Index ρ} {sh : Shape ρ} (h : x.tree.HasShape sh)
    (src : RowSource ρ) (b : Bound) {tail : List (Slot × ρ)}
    (hlist : sh.listed (side b.direction) = before ++ tail) :
    ∃ ahead rest, tail = ahead ++ rest ∧
      Ahead ⟨x, tail.head?.map Prod.fst, b⟩ src before ahead rest := by
  by_cases heq : b.isEquality = true
  · let admits : Slot × ρ → Bool := fun e => x.key.compareTo src e.2 b.key b.count == .eq
    have hsplit : tail.takeWhile admits ++ tail.dropWhile admits = tail :=
      List.takeWhile_append_dropWhile
    refine ⟨tail.takeWhile admits, tail.dropWhile admits, hsplit.symm, ⟨sh, h, ?_⟩, ?_, ?_, ?_⟩
    · rw [hsplit]
      exact hlist
    · rw [hsplit]
    · intro _ e he
      simpa [admits] using List.mem_takeWhile_imp he
    · intro e he
      have := List.head?_dropWhile_not admits tail
      rw [Option.mem_def.mp he] at this
      exact ⟨heq, by simpa [admits] using this⟩
  · refine ⟨tail, [], (List.append_nil tail).symm, ⟨sh, h, ?_⟩, ?_, fun h => absurd h heq, by simp⟩
    · rw [List.append_nil]
      exact hlist
    · rw [List.append_nil]

theorem pull_ahead (h : w.Ahead src before ahead rest) (count : Nat) :
    ∃ w', pull src count w = .ok ((ahead.map Prod.snd).take count, w') := by
  induction count generalizing w before ahead with
  | zero => exact ⟨w, by simp [pull]⟩
  | succ count ih =>
      cases ahead with
      | nil => exact ⟨_, by rw [pull, next_nil h]; rfl⟩
      | cons e ahead =>
          obtain ⟨current, hnext, hahead⟩ := next_cons h
          obtain ⟨w', hpull⟩ := ih hahead
          exact ⟨w', by rw [pull, hnext, ok_bind]; simp only [hpull, ok_bind]; rfl⟩

theorem length_lt_reach (h : w.Ahead src before ahead rest) : ahead.length < w.reach := by
  obtain ⟨⟨sh, hsh, hlist⟩, -, -, -⟩ := h
  have hle := hsh.length_le_reach
  rw [← Shape.length_listed (side w.bound.direction), hlist] at hle
  simp only [List.length_append] at hle
  simp only [reach]
  omega

end Walk

/-- The scan `s'` is a later state of the scan `s`, or resumes it. -/
structure Scan.Continues (s s' : Scan ρ) : Prop where
  index : s'.walk.index = s.walk.index
  bound : s'.walk.bound = s.walk.bound
  viewer : s'.viewer = s.viewer

namespace Scan

variable {s : Scan ρ} {src : RowSource ρ} {before ahead rest : List (Slot × ρ)}

/-- The rows among the nodes that the viewer sees. -/
def seen (src : RowSource ρ) (viewer : Viewer) (nodes : List (Slot × ρ)) : List ρ :=
  (nodes.map Prod.snd).filter (src.visible viewer)

theorem seen_append (src : RowSource ρ) (viewer : Viewer) (a b : List (Slot × ρ)) :
    seen src viewer (a ++ b) = seen src viewer a ++ seen src viewer b := by
  simp [seen]

theorem seen_middle {src : RowSource ρ} {viewer : Viewer} {e : Slot × ρ}
    (h : src.visible viewer e.2 = true) (a b : List (Slot × ρ)) :
    seen src viewer (a ++ e :: b) = seen src viewer a ++ e.2 :: seen src viewer b := by
  simp [seen, h]

private theorem seen_cons (src : RowSource ρ) (viewer : Viewer) (e : Slot × ρ)
    (nodes : List (Slot × ρ)) :
    seen src viewer (e :: nodes) =
      if src.visible viewer e.2 then e.2 :: seen src viewer nodes else seen src viewer nodes := by
  simp [seen, List.filter_cons]

/-- The next visible row is the first one ahead that the viewer sees, and the rows before it are
counted. -/
theorem nextWithin_ahead {fuel : Nat} (h : s.walk.Ahead src before ahead rest)
    (hfuel : ahead.length < fuel) :
    seen src s.viewer ahead = [] ∧
      (∃ s', nextWithin src fuel s = .ok (none, s') ∧ s.Continues s' ∧ s'.last = s.last ∧
        s'.skipped = s.skipped + ahead.length) ∨
    ∃ hidden e ahead' s', ahead = hidden ++ e :: ahead' ∧ seen src s.viewer hidden = [] ∧
      src.visible s.viewer e.2 = true ∧
      nextWithin src fuel s = .ok (some e.2, s') ∧ s.Continues s' ∧ s'.last = some e.2 ∧
      s'.walk.Ahead src (before ++ hidden ++ [e]) ahead' rest ∧
      s'.skipped = s.skipped + hidden.length := by
  induction ahead generalizing s before fuel with
  | nil =>
      obtain ⟨fuel, rfl⟩ : ∃ f, fuel = f + 1 := ⟨fuel - 1, by simp at hfuel; omega⟩
      left
      refine ⟨rfl, { s with walk := { s.walk with current := none } }, ?_, ⟨rfl, rfl, rfl⟩, rfl,
        rfl⟩
      rw [nextWithin, Walk.next_nil h, ok_bind]
      rfl
  | cons e ahead ih =>
      obtain ⟨fuel, rfl⟩ : ∃ f, fuel = f + 1 := ⟨fuel - 1, by simp at hfuel; omega⟩
      obtain ⟨current, hnext, hahead⟩ := Walk.next_cons h
      rw [nextWithin, hnext, ok_bind]
      by_cases hv : src.visible s.viewer e.2 = true
      · right
        refine ⟨[], e, ahead, { s with walk := { s.walk with current }, last := some e.2 }, rfl,
          rfl, hv, ?_, ⟨rfl, rfl, rfl⟩, rfl, by simpa using hahead, rfl⟩
        simp only [if_pos hv]
        rfl
      · simp only [if_neg hv]
        rcases ih (s := { s with walk := { s.walk with current }, skipped := s.skipped + 1 }) hahead
          (by simp at hfuel; omega) with ⟨hnone, s', hrun, hc, hlast, hskipped⟩ |
          ⟨hidden, e', ahead', s', rfl, hseen, hv', hrun, hc, hlast, hahead', hskipped⟩
        · left
          refine ⟨by rw [seen_cons, if_neg hv]; exact hnone, s', hrun, ⟨hc.index, hc.bound,
            hc.viewer⟩, hlast, ?_⟩
          simp only [hskipped, List.length_cons]
          omega
        · right
          refine ⟨e :: hidden, e', ahead', s', rfl, ?_, hv', hrun, ⟨hc.index, hc.bound, hc.viewer⟩,
            hlast, by simpa using hahead', ?_⟩
          · rw [seen_cons, if_neg hv]
            exact hseen
          · simp only [hskipped, List.length_cons]
            omega

/-- A scan hands out the visible rows ahead in order; its last row is the last one handed out. -/
theorem pull_ahead (h : s.walk.Ahead src before ahead rest) (count : Nat) :
    ∃ s', pull src count s = .ok ((seen src s.viewer ahead).take count, s') ∧ s.Continues s' ∧
      ((seen src s.viewer ahead).take count = [] ∧ s'.last = s.last ∨
        ∃ passed e ahead', ahead = passed ++ e :: ahead' ∧ s'.last = some e.2 ∧
          src.visible s.viewer e.2 = true ∧
          (seen src s.viewer ahead).take count = seen src s.viewer passed ++ [e.2]) := by
  induction count generalizing s before ahead with
  | zero => exact ⟨s, rfl, ⟨rfl, rfl, rfl⟩, .inl ⟨by simp, rfl⟩⟩
  | succ count ih =>
      rcases nextWithin_ahead h (Walk.length_lt_reach h) with ⟨hnone, s', hrun, hc, hlast, -⟩ |
        ⟨hidden, e, ahead', s', rfl, hseen, hv, hrun, hc, hlast, hahead, -⟩
      · refine ⟨s', ?_, hc, .inl ⟨by simp [hnone], hlast⟩⟩
        rw [pull, next, hrun, ok_bind, hnone]
        rfl
      · obtain ⟨s'', hpull, hc', hlast'⟩ := ih hahead
        rw [hc.viewer] at hpull hlast'
        rw [seen_middle hv, hseen, List.nil_append, List.take_succ_cons]
        refine ⟨s'', ?_, ⟨hc'.index.trans hc.index, hc'.bound.trans hc.bound,
          hc'.viewer.trans hc.viewer⟩, .inr ?_⟩
        · rw [pull, next, hrun, ok_bind]
          simp only [hpull, ok_bind]
          rfl
        · rcases hlast' with ⟨hnil, hlast'⟩ | ⟨passed, e', rest', rfl, hlast', hv', htake⟩
          · exact ⟨hidden, e, ahead', rfl, hlast'.trans hlast, hv, by rw [hseen, hnil]; rfl⟩
          · refine ⟨hidden ++ e :: passed, e', rest', by simp, hlast', hv', ?_⟩
            rw [htake, seen_middle hv, hseen]
            rfl

/-- Run to its end, a scan hands out all visible rows ahead. -/
theorem drain_ahead (h : s.walk.Ahead src before ahead rest) :
    ∃ s', s.drain src = .ok (seen src s.viewer ahead, s') := by
  obtain ⟨s', hpull, -⟩ := pull_ahead h s.walk.reach
  refine ⟨s', ?_⟩
  rw [drain, hpull, List.take_of_length_le]
  have hlt := Walk.length_lt_reach h
  have hle : (seen src s.viewer ahead).length ≤ ahead.length := by
    simpa [seen] using List.length_filter_le _ (ahead.map Prod.snd)
  omega

end Scan
end TableIndex
