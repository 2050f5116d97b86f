import TableIndex.RowSource

/-!
# Visibility filters

The visible rows of a list, handed out one by one, with a count of those passed over.
-/

namespace TableIndex

structure VisibleRows (ρ : Type) where
  viewer : Viewer
  /-- The rows not looked at yet. -/
  rest : List ρ
  skipped : Nat := 0
  deriving Repr

namespace VisibleRows

variable {ρ : Type}

def nextFrom (src : RowSource ρ) (viewer : Viewer) :
    List ρ → Nat → Option ρ × VisibleRows ρ
  | [], skipped => (none, ⟨viewer, [], skipped⟩)
  | row :: rest, skipped =>
      if src.visible viewer row then (some row, ⟨viewer, rest, skipped⟩)
      else nextFrom src viewer rest (skipped + 1)

/-- The next visible row. -/
def next (f : VisibleRows ρ) (src : RowSource ρ) : Option ρ × VisibleRows ρ :=
  nextFrom src f.viewer f.rest f.skipped

/-- Up to `count` visible rows. -/
def pull (src : RowSource ρ) : Nat → VisibleRows ρ → List ρ × VisibleRows ρ
  | 0, f => ([], f)
  | count + 1, f =>
      match f.next src with
      | (none, f) => ([], f)
      | (some row, f) =>
          let (rows, f) := pull src count f
          (row :: rows, f)

/-- The visible rows that are left; there are no more than rows not looked at. -/
def drain (f : VisibleRows ρ) (src : RowSource ρ) : List ρ × VisibleRows ρ :=
  pull src (f.rest.length + 1) f

/-- The least and the greatest number of rows still to come. -/
def bounds (f : VisibleRows ρ) : Nat × Nat := (0, f.rest.length)

end VisibleRows
end TableIndex
