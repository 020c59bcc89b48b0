/-
# What a transaction did

Every change is recorded so that it can be taken back, the newest first, and be written to the log.
Row numbers from `firstLocalRow` on stand for rows of the transaction itself.
-/

import ColumnStore.Table.Catalog
import ColumnStore.Table.LocalRows

namespace ColumnStore

/-- A change by a transaction. -/
inductive UndoRecord where
  | insert (table : TableId) (start count : Nat)
  | delete (table : TableId) (rows : List Nat)
  /-- Rows written over, with the values before. -/
  | update (table : TableId) (column : Nat) (rows : List Nat) (before : List Scalar)
  deriving Repr

/-- The table that was changed. -/
def UndoRecord.table : UndoRecord → TableId
  | .insert t .. | .delete t _ | .update t .. => t

/-- The local rows of a transaction, for each table that it inserts into, in the order of the first
insertion. -/
abbrev LocalTables := List (TableId × LocalRows)

namespace LocalTables

/-- The local rows of a table. -/
def get? (l : LocalTables) (table : TableId) : Option LocalRows := l.lookup table

/-- Puts other local rows of a table in place, behind all others if there are none yet. -/
def set (table : TableId) (rows : LocalRows) : LocalTables → LocalTables
  | [] => [(table, rows)]
  | (t, r) :: rest => if t = table then (t, rows) :: rest else (t, r) :: set table rows rest

/-- No table has local rows. -/
def isEmpty (l : LocalTables) : Bool := l.all (·.2.isEmpty)

/-- Whether a row number from `firstLocalRow` on stands for a local row of a table. -/
def hasRow (l : LocalTables) (table : TableId) (row : Nat) : Bool :=
  (l.get? table).any (·.contains (row - firstLocalRow))

end LocalTables
end ColumnStore
