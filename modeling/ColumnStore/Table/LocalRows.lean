/-
# Local rows

The rows that a transaction has inserted into a table and not committed yet.  Only the transaction
sees them.  Their numbers start at `2 ^ 62`, above those of all committed rows.
-/

import ColumnStore.Segment.Column
import ColumnStore.Vector.Chunk

namespace ColumnStore

/-- The number of the first local row. -/
def firstLocalRow : Nat := 0x4000000000000000

/-- Whether a row number stands for a local row. -/
def isLocalRow (row : Nat) : Bool := firstLocalRow ≤ row

/-- The rows of a table that are in the table, and not local. -/
def committedRows (rows : List Nat) : List Nat := rows.filter (!isLocalRow ·)

/-- Rows of a table that only their transaction sees. -/
structure LocalRows where
  columns : List ValueVector
  count : Nat := 0
  deleted : List Nat := []
  deriving Repr, Inhabited

namespace LocalRows

/-- No rows, for columns of the given types. -/
def new (types : List ColumnType) : LocalRows := { columns := types.map (.new · 0) }

def isEmpty (l : LocalRows) : Bool := l.count == 0

def contains (l : LocalRows) (i : Nat) : Bool := i < l.count

def isDeleted (l : LocalRows) (i : Nat) : Bool := l.deleted.contains i

/-- The rows that are not deleted. -/
def live (l : LocalRows) : List Nat := (List.range l.count).filter (!l.isDeleted ·)

/-- The number of rows less that of deletions, of which there must not be more. -/
def liveCount? (l : LocalRows) : Option Nat :=
  if l.deleted.length ≤ l.count then some (l.count - l.deleted.length) else none

/-- The number of slots of the columns. -/
def capacity (l : LocalRows) : Nat := (l.columns.head?.map ValueVector.capacity).getD 0

/-- Copies the same slots of vectors to the end of columns, up to the first that is refused. -/
def copyColumns (start : Nat) (slots : Selection) :
    List ValueVector → List ValueVector → Attempt VectorError (List ValueVector) Unit
  | c :: cs, v :: vs =>
    match c.copyRows start v slots with
    | (.ok (), c) => let (r, cs) := copyColumns start slots cs vs; (r, c :: cs)
    | (.error e, c) => (.error e, c :: cs)
  | cs, _ => (.ok (), cs)

/-- Refuses vectors that are not of the types of the columns. -/
def checkTypes : List ValueVector → List ValueVector → Except VectorError Unit
  | c :: cs, v :: vs =>
    if v.type = c.type then checkTypes cs vs else .error (.typeMismatch c.type v.type.render)
  | _, _ => .ok ()

/-- Adds the rows of a chunk, and gives the first and the one past the last. -/
def append (l : LocalRows) (c : Chunk) : Attempt StorageError LocalRows (Nat × Nat) :=
  if c.columns.length ≠ l.columns.length then
    (.error (.vector (.columnCount l.columns.length c.columns.length)), l)
  else
    match checkTypes l.columns c.columns with
    | .error e => (.error (.vector e), l)
    | .ok () =>
      let stop := l.count + c.cardinality
      let columns :=
        if l.capacity < stop then
          l.columns.map (·.resize (max (max stop (l.count * 2)) 16))
        else l.columns
      match copyColumns l.count c.slots columns c.columns with
      | (.error e, columns) => (.error (.vector e), { l with columns })
      | (.ok (), columns) => (.ok (l.count, stop), { l with columns, count := stop })

/-- Makes slots of every column `NULL`. -/
def clearSlots (columns : List ValueVector) (slots : List Nat) : List ValueVector :=
  columns.map fun v => slots.foldl (fun v i => (v.setNull? i).getD v) v

/-- Forgets the rows from `n` on. -/
def truncate (l : LocalRows) (n : Nat) : LocalRows :=
  if l.count ≤ n then l
  else
    { columns := clearSlots l.columns (List.range' n (l.count - n))
      count := n
      deleted := l.deleted.filter (· < n) }

/-- Marks a row deleted, and says whether it was not deleted before. -/
def delete (l : LocalRows) (i : Nat) : Bool × LocalRows :=
  if l.isDeleted i then (false, l) else (true, { l with deleted := i :: l.deleted })

/-- Takes the deletion of a row back. -/
def undelete (l : LocalRows) (i : Nat) : LocalRows := { l with deleted := l.deleted.filter (· ≠ i) }

/-- The value of a column of a row. -/
def get? (l : LocalRows) (column i : Nat) : Option Scalar := l.columns[column]?.bind (·.get? i)

/-- Writes a value over a column of a row. -/
def set (l : LocalRows) (column i : Nat) (x : Scalar) : Attempt VectorError LocalRows Unit :=
  match l.columns[column]? with
  | none => (.error .outOfRange, l)
  | some v => let (r, v) := v.set i x; (r, { l with columns := l.columns.set column v })

/-- The values of a row. -/
def row? (l : LocalRows) (i : Nat) : Option Row := l.columns.mapM (·.get? i)

end LocalRows
end ColumnStore
