import TableIndex.Txn.Isolation

/-!
# Viewers

Who is looking at rows: a session, its transaction, and what the transaction may see.
-/

namespace TableIndex

structure Viewer where
  session : Int := 0
  /-- The viewing transaction, whose own writes are always visible. -/
  txn : Int := 0
  isolation : Isolation := .readCommitted
  /-- The begin of the transaction; a snapshot holds the commits up to it. -/
  snapshot : Int := 0
  deriving DecidableEq, Repr, Inhabited

namespace Viewer

def isSnapshot (v : Viewer) : Bool := v.isolation == .snapshot

def render (v : Viewer) : String :=
  s!"session {v.session} txn {v.txn} (" ++ v.isolation.render ++ s!", snapshot {v.snapshot})"

end Viewer
end TableIndex
