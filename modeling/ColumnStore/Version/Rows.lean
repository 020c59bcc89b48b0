/-
# Row versions

Each row of a table carries the stamp of who inserted it and of who deleted it.  A snapshot sees a
row when it sees the first stamp and not the second.
-/

import ColumnStore.Bytes.Basic
import ColumnStore.Version.Snapshot

namespace ColumnStore

/-- The stamps of a row. -/
structure RowStamps where
  inserted : Stamp
  deleted : Stamp := neverDeleted
  deriving DecidableEq, Repr, Inhabited

/-- The stamps of all rows of a table. -/
structure RowVersions where
  rows : Array RowStamps := #[]
  deriving DecidableEq, Repr, Inhabited

/-- Whether a writer may delete or update a row. -/
inductive WriteCheck where
  | writable
  /-- The writer sees the row as deleted. -/
  | deleted
  /-- Another transaction owns the row, or changed it after the writer began. -/
  | conflict
  deriving DecidableEq, Repr

def WriteCheck.name : WriteCheck → String
  | .writable => "Writable"
  | .deleted => "Deleted"
  | .conflict => "Conflict"

namespace RowStamps

/-- Whether a snapshot sees a row. -/
def isVisible (r : RowStamps) (s : Snapshot) : Bool := s.sees r.inserted && !s.sees r.deleted

/-- Whether a writer with a snapshot may delete or update a row. -/
def checkWrite (r : RowStamps) (s : Snapshot) : WriteCheck :=
  if !s.sees r.inserted then .conflict
  else if r.deleted = neverDeleted then .writable
  else if s.sees r.deleted then .deleted
  else .conflict

end RowStamps

namespace RowVersions

/-- The number of rows. -/
def size (v : RowVersions) : Nat := v.rows.size

/-- Adds rows with a stamp. -/
def append (v : RowVersions) (count : Nat) (stamp : Stamp) : RowVersions :=
  ⟨v.rows ++ Array.replicate count { inserted := stamp }⟩

/-- Rows that every snapshot sees. -/
def committed (count : Nat) : RowVersions := append {} count 0

/-- The bytes of a stamp. -/
def stampBytes : Nat := 8

/-- Adds rows with a stamp, if there can be so many. -/
def append? (v : RowVersions) (count : Nat) (stamp : Stamp) : Option RowVersions :=
  if stampBytes * (v.size + count) ≤ Bytes.longest then some (v.append count stamp) else none

/-- Rows that every snapshot sees, if there can be so many. -/
def committed? (count : Nat) : Option RowVersions := append? {} count 0

/-- Whether a snapshot sees a row. -/
def isVisible? (v : RowVersions) (row : Nat) (s : Snapshot) : Option Bool :=
  v.rows[row]?.map (·.isVisible s)

/-- The rows among the `count` from `start` on that a snapshot sees, counted from `start`. -/
def visible? (v : RowVersions) (start count : Nat) (s : Snapshot) : Option (List Nat) :=
  if v.size < start + count && count ≠ 0 then none
  else
    ((List.range count).mapM fun i =>
      (v.isVisible? (start + i) s).map fun seen => if seen then [i] else []).map List.flatten

/-- Whether a writer may delete or update a row. -/
def checkWrite? (v : RowVersions) (row : Nat) (s : Snapshot) : Option WriteCheck :=
  v.rows[row]?.map (·.checkWrite s)

/-- Gives a row a deletion stamp. -/
def setDeleted (v : RowVersions) (row : Nat) (stamp : Stamp) : RowVersions :=
  ⟨v.rows.modify row fun r => { r with deleted := stamp }⟩

/-- Marks a row deleted. -/
def mark? (v : RowVersions) (row : Nat) (stamp : Stamp) : Option RowVersions :=
  v.rows[row]?.map fun _ => v.setDeleted row stamp

/-- Takes the deletion of a row by a transaction back, and says whether there was one. -/
def unmark? (v : RowVersions) (row : Nat) (transaction : Stamp) : Option (Bool × RowVersions) :=
  v.rows[row]?.map fun r =>
    if r.deleted = transaction then (true, v.setDeleted row neverDeleted) else (false, v)

/-- Gives the deletion of a row by a transaction the time of its commit. -/
def commitDelete? (v : RowVersions) (row : Nat) (transaction time : Stamp) : Option RowVersions :=
  v.rows[row]?.map fun r => if r.deleted = transaction then v.setDeleted row time else v

end RowVersions
end ColumnStore
