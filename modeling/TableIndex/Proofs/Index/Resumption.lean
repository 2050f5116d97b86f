import TableIndex.Proofs.Index.Search

/-!
# Resuming after changes

A cursor keeps the last row of its scan. The scan that it resumes, on whatever the index has become,
starts at the first row behind that one in its direction, whether the row itself is still there or
not. As the row was one of those asked for, a resumed scan is within its bound from the start, and
only an equality has an end to look for.
-/

namespace TableIndex

open Std

variable {ρ : Type}

/-- The sources agree on the key and the identities of a row. -/
def RowSource.Alike (src src' : RowSource ρ) (row : ρ) : Prop :=
  src'.project row = src.project row ∧ src'.rowId row = src.rowId row ∧
    src'.versionId row = src.versionId row

/-- A direction reads the row behind `last`. -/
def Direction.passes (d : Direction) (key : KeyOrder) (src : RowSource ρ) (last row : ρ) : Bool :=
  match d with
  | .forward => key.place src row last == .gt
  | .backward => key.place src row last == .lt

namespace Request

variable (q : Request) (key : KeyOrder) (src : RowSource ρ)

/-- The rows asked for that the viewer sees, as far as they are behind `last`. -/
def remaining (viewer : Viewer) (last : ρ) (rows : List ρ) : List ρ :=
  (q.yield key src viewer rows).filter (q.direction.passes key src last)

private theorem bound_direction : q.bound.direction = q.direction := by
  cases q <;> rfl

end Request

namespace Index

variable {x : Index ρ} {src : RowSource ρ} {rows : List ρ}

private theorem precedes_iff_passes (d : Direction) (a b : ρ) :
    x.Precedes src d a b ↔ d.passes x.key src a b = true := by
  cases d with
  | forward =>
      rw [Precedes, Direction.passes, place_swap, Ordering.swap_eq_lt, beq_iff_eq]
      rfl
  | backward =>
      rw [Precedes, Direction.passes, beq_iff_eq]
      rfl

private theorem precedes_trans {d : Direction} {a b c : ρ} (hab : x.Precedes src d a b)
    (hbc : x.Precedes src d b c) : x.Precedes src d a c := by
  have htrans : ∀ {a b c}, x.place src a b = .lt → x.place src b c = .lt → x.place src a c = .lt :=
    TransCmp.lt_trans
  cases d with
  | forward => exact htrans hab hbc
  | backward => exact htrans hbc hab

private theorem Lists.after_split (h : x.Lists src rows) {sh : Shape ρ} (hsh : x.tree.HasShape sh)
    (d : Direction) (last : ρ) :
    ∃ before after, sh.listed (Walk.side d) = before ++ after ∧
      x.after src last d = .ok (after.head?.map Prod.fst) ∧
      (∀ e ∈ before, d.passes x.key src last e.2 = false) ∧
      ∀ e ∈ after, d.passes x.key src last e.2 = true := by
  have hmono : (sh.listed (Walk.side d)).Pairwise fun a b =>
      d.passes x.key src last a.2 = true → d.passes x.key src last b.2 = true := by
    refine (h.precedes d hsh).imp fun hab ha => ?_
    rw [← precedes_iff_passes] at ha ⊢
    exact precedes_trans ha hab
  cases d with
  | forward => exact hsh.boundary_split .left hmono
  | backward => exact hsh.boundary_split .right hmono

private theorem opening_passes {c : Comparison} {last row : ρ} {wanted : List Value} {count : Nat}
    (hlast : c.accepts (x.key.compareTo src last wanted count) = true)
    (hpasses : c.direction.passes x.key src last row = true) :
    c.opening.accepts (x.key.compareTo src row wanted count) = true :=
  opening_mono ((precedes_iff_passes _ _ _).mpr hpasses) wanted count
    (Comparison.accepts_opening hlast)

private theorem Lists.resume_ahead (h : x.Lists src rows) (viewer : Viewer) {q : Request} {last : ρ}
    (hlast : q.admits x.key src last = true) :
    ∃ s before ahead rest, x.resume src viewer ⟨some last, q.bound⟩ = .ok s ∧
      s.walk.Ahead src before ahead rest ∧ s.walk.index = x ∧ s.walk.bound = q.bound ∧
      s.viewer = viewer ∧ s.last = none ∧
      ahead.map Prod.snd =
        (q.selected x.key src rows).filter (q.direction.passes x.key src last) := by
  obtain ⟨sh, hsh, -⟩ := h.shape
  obtain ⟨before, after, hlist, hafter, hbefore, hbehind⟩ :=
    h.after_split hsh q.bound.direction last
  obtain ⟨ahead, rest, rfl, hahead⟩ := Walk.exists_ahead_of_listed hsh src q.bound hlist
  refine ⟨⟨⟨x, _, q.bound⟩, viewer, none, 0⟩, before, ahead, rest, ?_, hahead, rfl, rfl, rfl, rfl,
    ?_⟩
  · simp only [resume, hafter, ok_bind, pure_eq_ok]
  have hadmitted : (∀ e ∈ ahead, q.admits x.key src e.2 = true) ∧
      ∀ e ∈ rest, q.admits x.key src e.2 = false := by
    cases q with
    | full d =>
        obtain rfl := hahead.rest_eq_nil rfl
        exact ⟨fun _ _ => rfl, by simp⟩
    | matching wanted count c =>
        exact h.ahead_accepted hahead fun e he => opening_passes hlast (hbehind e he)
  -- the rows due are none of those before, all of those ahead, and none past an equality's end
  rw [q.bound_direction] at hlist hbefore hbehind
  let due : Slot × ρ → Bool := fun e =>
    q.direction.passes x.key src last e.2 && q.admits x.key src e.2
  have hnone : before.filter due = [] := by
    rw [List.filter_eq_nil_iff]
    intro e he
    simp [due, hbefore e he]
  have hall : ahead.filter due = ahead := by
    rw [List.filter_eq_self]
    intro e he
    simp [due, hbehind e (List.mem_append_left _ he), hadmitted.1 e he]
  have hrest : rest.filter due = [] := by
    rw [List.filter_eq_nil_iff]
    intro e he
    simp [due, hadmitted.2 e he]
  have hfilter : (sh.listed (Walk.side q.direction)).filter due = ahead := by
    rw [hlist, List.filter_append, List.filter_append, hnone, hall, hrest, List.append_nil,
      List.nil_append]
  rw [Request.selected, List.filter_filter, ← h.read_eq q.direction hsh, List.filter_map]
  exact congrArg (List.map Prod.snd) hfilter.symm

end Index

namespace Walk

variable {w : Walk ρ} {src src' : RowSource ρ} {before ahead rest : List (Slot × ρ)}

private theorem Ahead.exhausted (h : w.Ahead src before [] rest) :
    Ahead { w with current := none } src (before ++ rest) [] [] := by
  obtain ⟨sh, hsh, hlist⟩ := h.listed
  exact ⟨⟨sh, hsh, by simpa using hlist⟩, rfl, by simp, by simp⟩

private theorem Ahead.holds (h : w.Ahead src before ahead rest) :
    ∀ e ∈ ahead ++ rest, w.index.Holds e.2 := by
  rintro ⟨s, r⟩ he
  obtain ⟨sh, hsh, hlist⟩ := h.listed
  obtain ⟨pre, post, hsplit⟩ := List.append_of_mem he
  rw [hsplit, ← List.append_assoc] at hlist
  exact ⟨s, (Tree.neighbor_listed hsh hlist).1⟩

private theorem Ahead.congr_source (h : w.Ahead src before ahead rest)
    (hsame : ∀ r, w.index.Holds r → src'.project r = src.project r) :
    w.Ahead src' before ahead rest where
  listed := h.listed
  current := h.current
  admits heq e he := by
    rw [KeyOrder.compareTo_congr _ (hsame _ (h.holds e (List.mem_append_left _ he)))]
    exact h.admits heq e he
  stops e he := by
    rw [KeyOrder.compareTo_congr _
      (hsame _ (h.holds e (List.mem_append_right _ (List.mem_of_mem_head? he))))]
    exact h.stops e he

end Walk

namespace Scan

variable {s s' : Scan ρ} {config : Index.Config} {q : Request} {src src' : RowSource ρ}

private theorem last_of_nextWithin {fuel : Nat} {answer : Option ρ}
    (hrun : nextWithin src fuel s = .ok (answer, s')) : s'.last = answer.or s.last := by
  induction fuel generalizing s with
  | zero => cases hrun
  | succ fuel ih =>
      rw [nextWithin] at hrun
      obtain ⟨⟨_ | row, walk⟩, -, hrun⟩ := bind_eq_ok.mp hrun
      · obtain ⟨rfl, rfl⟩ := Prod.mk.inj (Except.ok.inj hrun)
        rfl
      · dsimp only at hrun
        split at hrun
        · obtain ⟨rfl, rfl⟩ := Prod.mk.inj (Except.ok.inj hrun)
          rfl
        · have hlast := ih hrun
          exact hlast

private theorem last_of_pull {count : Nat} {batch : List ρ}
    (hrun : s.pull src count = .ok (batch, s')) :
    s'.last = batch.getLast?.or s.last := by
  induction count generalizing s batch with
  | zero =>
      obtain ⟨rfl, rfl⟩ := Prod.mk.inj (Except.ok.inj hrun)
      rfl
  | succ count ih =>
      obtain ⟨⟨answer, s₁⟩, hnext, hrun⟩ := bind_eq_ok.mp hrun
      have hlast := last_of_nextWithin hnext
      cases answer with
      | none =>
          obtain ⟨rfl, rfl⟩ := Prod.mk.inj (Except.ok.inj hrun)
          exact hlast
      | some row =>
          obtain ⟨⟨rest, s₂⟩, hpull, hrun⟩ := bind_eq_ok.mp hrun
          obtain ⟨rfl, rfl⟩ := Prod.mk.inj (Except.ok.inj hrun)
          rw [ih hpull, hlast, List.getLast?_cons]
          cases rest.getLast? <;> rfl

/-- The scan is one of `q`: what it has ahead is asked for, and so is its last row. -/
structure Within (s : Scan ρ) (config : Index.Config) (q : Request) (src : RowSource ρ) : Prop where
  configured : s.walk.index.config = config
  bound : s.walk.bound = q.bound
  lists : ∃ rows, s.walk.index.Lists src rows
  ahead : ∃ before ahead rest, s.walk.Ahead src before ahead rest ∧
    ∀ e ∈ ahead, q.admits config.key src e.2 = true
  last : ∀ r, s.last = some r → q.admits config.key src r = true

namespace Within

private theorem nextWithin {fuel : Nat} {answer : Option ρ} (h : s.Within config q src)
    (hrun : Scan.nextWithin src fuel s = .ok (answer, s')) : s'.Within config q src := by
  induction fuel generalizing s with
  | zero => cases hrun
  | succ fuel ih =>
      obtain ⟨before, ahead, rest, hahead, hadmits⟩ := h.ahead
      rw [Scan.nextWithin] at hrun
      cases ahead with
      | nil =>
          rw [Walk.next_nil hahead, ok_bind] at hrun
          obtain rfl := snd_eq_of_ok hrun
          exact ⟨h.configured, h.bound, h.lists, ⟨_, [], [], hahead.exhausted, by simp⟩, h.last⟩
      | cons e ahead =>
          obtain ⟨current, hnext, hahead'⟩ := Walk.next_cons hahead
          have hadmits' : ∀ e' ∈ ahead, q.admits config.key src e'.2 = true :=
            fun e' he => hadmits e' (List.mem_cons_of_mem _ he)
          rw [hnext, ok_bind] at hrun
          dsimp only at hrun
          split at hrun
          · obtain rfl := snd_eq_of_ok hrun
            refine ⟨h.configured, h.bound, h.lists, ⟨_, ahead, rest, hahead', hadmits'⟩, ?_⟩
            rintro _ ⟨⟩
            exact hadmits e (by simp)
          · refine ih ?_ hrun
            exact ⟨h.configured, h.bound, h.lists, ⟨_, ahead, rest, hahead', hadmits'⟩, h.last⟩

private theorem pull {count : Nat} {batch : List ρ} (h : s.Within config q src)
    (hrun : s.pull src count = .ok (batch, s')) : s'.Within config q src := by
  induction count generalizing s batch with
  | zero =>
      obtain rfl := snd_eq_of_ok hrun
      exact h
  | succ count ih =>
      obtain ⟨⟨answer, s₁⟩, hnext, hrun⟩ := bind_eq_ok.mp hrun
      have h₁ := h.nextWithin hnext
      cases answer with
      | none =>
          obtain rfl := snd_eq_of_ok hrun
          exact h₁
      | some row =>
          obtain ⟨⟨rest, s₂⟩, hpull, hrun⟩ := bind_eq_ok.mp hrun
          obtain rfl := snd_eq_of_ok hrun
          exact ih h₁ hpull

private theorem congr_source (h : s.Within config q src)
    (hsame : ∀ r, s.walk.index.Holds r ∨ s.last = some r → src.Alike src' r) :
    s.Within config q src' := by
  obtain ⟨rows, hlists⟩ := h.lists
  obtain ⟨before, ahead, rest, hahead, hadmits⟩ := h.ahead
  refine ⟨h.configured, h.bound,
    ⟨rows, hlists.congr_source fun r hr => hsame r (.inl (hlists.holds hr))⟩,
    ⟨before, ahead, rest, hahead.congr_source fun r hr => (hsame r (.inl hr)).1, fun e he => ?_⟩,
    fun r hr => ?_⟩
  · rw [q.admits_congr _ (hsame _ (.inl (hahead.holds e (List.mem_append_left _ he)))).1]
    exact hadmits e he
  · rw [q.admits_congr _ (hsame r (.inr hr)).1]
    exact h.last r hr

end Within
end Scan

namespace Index

variable {config : Config} {q : Request} {src src' : RowSource ρ} {handed : List ρ} {s : Scan ρ}
  {x : Index ρ}

private theorem answer_within {rows : List ρ} (h : x.Lists src rows) {viewer : Viewer}
    (hrun : x.answer src viewer q = .ok s) : s.Within x.config q src ∧ s.last = none := by
  obtain ⟨s₁, before, ahead, rest, hanswer, hahead, -, -, hselected⟩ := h.answer_selected viewer q
  obtain ⟨s₂, -, -, -, hanswer', -, hindex, hbound, -, hlast, -⟩ := answer_ahead h viewer q
  obtain rfl := Except.ok.inj (hanswer.symm.trans hrun)
  obtain rfl := Except.ok.inj (hanswer'.symm.trans hrun)
  refine ⟨⟨by rw [hindex], hbound, ⟨rows, hindex ▸ h⟩,
    ⟨before, ahead, rest, hahead, fun e he => ?_⟩, by simp [hlast]⟩, hlast⟩
  have hmem : e.2 ∈ q.selected x.key src rows := hselected ▸ List.mem_map_of_mem he
  exact (List.mem_filter.mp hmem).2

private theorem resume_within {rows : List ρ} (h : x.Lists src rows) {viewer : Viewer}
    {last : Option ρ} (hlast : ∀ r, last = some r → q.admits x.key src r = true)
    (hrun : x.resume src viewer ⟨last, q.bound⟩ = .ok s) :
    s.Within x.config q src ∧ s.last = none := by
  cases last with
  | none =>
      obtain ⟨s₁, -, -, -, hanswer, -, -, -, -, -, hagain⟩ := answer_ahead h viewer q
      obtain rfl := Except.ok.inj (hagain.symm.trans hrun)
      exact answer_within h hanswer
  | some l =>
      obtain ⟨s₁, before, ahead, rest, hresume, hahead, hindex, hbound, -, hnone, hrows⟩ :=
        h.resume_ahead viewer (hlast l rfl)
      obtain rfl := Except.ok.inj (hresume.symm.trans hrun)
      refine ⟨⟨by rw [hindex], hbound, ⟨rows, hindex ▸ h⟩,
        ⟨before, ahead, rest, hahead, fun e he => ?_⟩, by simp [hnone]⟩, hnone⟩
      have hmem := hrows ▸ List.mem_map_of_mem (f := Prod.snd) he
      exact (List.mem_filter.mp (List.mem_filter.mp hmem).1).2

variable [Inhabited ρ]

/-- The scan is one of `q` on an index of this configuration, however often it has been resumed on
an index that had changed, and it has handed out these rows since it was last resumed. -/
inductive Reads (config : Config) (q : Request) : RowSource ρ → List ρ → Scan ρ → Prop
  | asked {src : RowSource ρ} {x : Index ρ} {S : Set ρ} {viewer : Viewer} {s : Scan ρ} :
      Built config src x S → x.answer src viewer q = .ok s → Reads config q src [] s
  | pulled {src : RowSource ρ} {handed batch : List ρ} {s s' : Scan ρ} {count : Nat} :
      Reads config q src handed s → s.pull src count = .ok (batch, s') →
      Reads config q src (handed ++ batch) s'
  | changed {src src' : RowSource ρ} {handed : List ρ} {s : Scan ρ} :
      Reads config q src handed s →
      (∀ r, s.walk.index.Holds r ∨ handed.getLast? = some r → src.Alike src' r) →
      Reads config q src' handed s
  | resumed {src src' : RowSource ρ} {handed : List ρ} {s s' : Scan ρ} {x : Index ρ} {S : Set ρ}
      {viewer : Viewer} :
      Reads config q src handed s → Built config src' x S →
      (∀ r, handed.getLast? = some r → src.Alike src' r) →
      x.resume src' viewer s.cursor = .ok s' → Reads config q src' [] s'

private theorem Reads.within (h : Reads config q src handed s) :
    s.Within config q src ∧ s.last = handed.getLast? := by
  induction h with
  | asked hbuilt hrun =>
      obtain ⟨rfl, rows, hlists, -⟩ := hbuilt.lists
      exact answer_within hlists hrun
  | pulled _ hrun ih =>
      refine ⟨ih.1.pull hrun, ?_⟩
      rw [Scan.last_of_pull hrun, ih.2, List.getLast?_append]
  | changed _ hsame ih => exact ⟨ih.1.congr_source (ih.2 ▸ hsame), ih.2⟩
  | resumed _ hbuilt hsame hrun ih =>
      obtain ⟨rfl, rows, hlists, -⟩ := hbuilt.lists
      rw [Scan.cursor, ih.1.bound] at hrun
      refine resume_within hlists (fun r hr => ?_) hrun
      rw [Index.key, q.admits_congr _ (hsame r (ih.2 ▸ hr)).1]
      exact ih.1.last r hr

/-- However a scan of `q` has come to hand out its last row, its cursor resumes on every index of
the same configuration, whatever has been inserted, deleted or cleared since, and hands out exactly
the rows of that index that are asked for, lie behind the last row and are visible now, in order. -/
theorem resume_exact {S : Set ρ} {last : ρ} (h : Reads config q src handed s)
    (hlast : handed.getLast? = some last) (hbuilt : Built config src' x S)
    (hsame : src.Alike src' last) (viewer : Viewer) :
    ∃ rows s', (∀ r, r ∈ rows ↔ r ∈ S) ∧
      rows.Pairwise (fun a b => config.key.place src' a b = .lt) ∧
      x.resume src' viewer s.cursor = .ok s' ∧
      (∃ s'', s'.drain src' = .ok (q.remaining config.key src' viewer last rows, s'')) ∧
      ∀ count, ∃ s'', s'.pull src' count =
        .ok ((q.remaining config.key src' viewer last rows).take count, s'') := by
  obtain ⟨hwithin, hheld⟩ := h.within
  rw [hlast] at hheld
  obtain ⟨rfl, rows, hlists, hmem⟩ := hbuilt.lists
  have hadmits : q.admits x.key src' last = true := by
    rw [Index.key, q.admits_congr _ hsame.1]
    exact hwithin.last last hheld
  obtain ⟨s', before, ahead, rest, hresume, hahead, -, -, rfl, -, hrows⟩ :=
    hlists.resume_ahead viewer hadmits
  have hseen : Scan.seen src' s'.viewer ahead =
      q.remaining x.config.key src' s'.viewer last rows := by
    rw [Scan.seen, hrows, List.filter_comm]
    rfl
  refine ⟨rows, s', hmem, hlists.sorted, by rw [Scan.cursor, hwithin.bound, hheld, hresume], ?_,
    fun count => ?_⟩
  · obtain ⟨s'', hdrain⟩ := Scan.drain_ahead hahead
    exact ⟨s'', hseen ▸ hdrain⟩
  · obtain ⟨s'', hpull, -⟩ := Scan.pull_ahead hahead count
    exact ⟨s'', hseen ▸ hpull⟩

/-- The last row is deleted, and rows with its key are inserted on both sides of it. -/
theorem resume_exact_deleted :
    ∃ (config : Config) (q : Request) (handed : List NumberedRow) (s : Scan NumberedRow)
      (x : Index NumberedRow) (last : NumberedRow) (S : Set NumberedRow),
      Reads config q (.committed none) handed s ∧ handed.getLast? = some last ∧
      Built config (.committed none) x S ∧
      RowSource.Alike (.committed none) (.committed none) last ∧ last ∉ S ∧ x.size = 3 ∧
      ∃ rows s', (∀ r, r ∈ rows ↔ r ∈ S) ∧
        rows.Pairwise (fun a b => config.key.place (.committed none) a b = .lt) ∧
        x.resume (.committed none) default s.cursor = .ok s' ∧
        (∃ s'', s'.drain (.committed none) =
          .ok (q.remaining config.key (.committed none) default last rows, s'')) ∧
        ∀ count, ∃ s'', s'.pull (.committed none) count =
          .ok ((q.remaining config.key (.committed none) default last rows).take count, s'') := by
  have hcreate : create ⟨"flags", 0, [⟨0, .ascending, .first⟩], false, false, false, false⟩ none =
      Except.ok (⟨_, .empty⟩ : Index NumberedRow) := rfl
  have h₀ : Built _ (.committed none) _ _ := .create hcreate
  have h₁ := h₀.added (show insert _ _ none ⟨2, ⟨[.boolean true]⟩⟩ = .ok (.ok true, _) from rfl)
  have h₂ := h₁.added (show insert _ _ none ⟨4, ⟨[.boolean true]⟩⟩ = .ok (.ok true, _) from rfl)
  have hasked := Reads.asked (q := .matching [.boolean true] 1 .eq) h₂
    (show answer _ _ default _ = .ok _ from rfl)
  have hread := hasked.pulled (show Scan.pull _ 1 _ = .ok ([⟨2, ⟨[.boolean true]⟩⟩], _) from rfl)
  have h₃ := h₂.deleted (show delete _ _ ⟨2, ⟨[.boolean true]⟩⟩ = .ok (true, _) from rfl)
  have h₄ := h₃.added (show insert _ _ none ⟨1, ⟨[.boolean true]⟩⟩ = .ok (.ok true, _) from rfl)
  have h₅ := h₄.added (show insert _ _ none ⟨3, ⟨[.boolean true]⟩⟩ = .ok (.ok true, _) from rfl)
  refine ⟨_, _, _, _, _, ⟨2, ⟨[.boolean true]⟩⟩, _, hread, rfl, h₅, ⟨rfl, rfl, rfl⟩, ?_, rfl,
    resume_exact hread rfl h₅ ⟨rfl, rfl, rfl⟩ default⟩
  rintro ((⟨-, hkept⟩ | hother) | hother)
  · exact hkept ⟨rfl, rfl, rfl⟩
  · cases hother
  · cases hother

end Index
end TableIndex
