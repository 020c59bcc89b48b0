/-
# Transactions

A transaction sees what was committed before it began, and its own changes.  Its insertions stay
with it until it commits.  Its deletions and updates are made in the tables, with its number for a
stamp, and recorded.
-/

import ColumnStore.Transaction.Undo

namespace ColumnStore

/-- A transaction. -/
structure Transaction where
  id : Stamp
  /-- The time of the last commit that it sees. -/
  start : Stamp
  state : TransactionState := .active
  commitTime : Option Stamp := none
  /-- Its changes, the oldest first. -/
  undo : List UndoRecord := []
  locals : LocalTables := []
  cancel : CancelFlag := {}
  deriving Repr, Inhabited

namespace Transaction

/-- What the transaction sees. -/
def snapshot (x : Transaction) : Snapshot := ⟨x.start, x.id⟩

/-- Refuses a transaction that has ended. -/
def checkActive (x : Transaction) : Except TransactionError Unit :=
  if x.state = .active then .ok () else .error (.invalidState x.id x.state .active)

/-- Refuses to read for a transaction that has ended or is cancelled. -/
def checkReadable (x : Transaction) : Except TransactionError Unit := do
  x.checkActive
  if x.cancel.raised then throw .cancelled

/-- Records a change. -/
def record (x : Transaction) (change : UndoRecord) : Transaction :=
  { x with undo := x.undo ++ [change] }

/-- Puts other local rows of a table in place. -/
def setLocal (x : Transaction) (table : TableId) (rows : LocalRows) : Transaction :=
  { x with locals := x.locals.set table rows }

/-- Forgets all changes; nothing is left to take back or to write. -/
def forget (x : Transaction) : Transaction := { x with undo := [], locals := [] }

/-- A line that describes a transaction. -/
def describe (x : Transaction) : String :=
  "Transaction \x7b id: " ++ toString x.id ++ ", start_ts: " ++ toString x.start ++ ", state: " ++
    x.state.name ++ ", undo: " ++ toString x.undo.length ++ " \x7d"

end Transaction
end ColumnStore
