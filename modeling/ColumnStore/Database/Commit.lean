/-
# Commits

A commit writes the changes of a transaction to the log, as one group that ends with the time of the
commit.  Once they are there the transaction has committed: its local rows are added to the tables,
and its number is replaced by the time wherever it stands as a stamp.
-/

import ColumnStore.Database.Session

namespace ColumnStore
namespace Session

/-- A table that was changed and then dropped. -/
def droppedTable? (s : Session) : Option String :=
  (s.transaction.undo.find? fun r => (s.table r.table).dropped).map fun r => (s.table r.table).name

/-- The log entry for a change of committed rows, with the values as the transaction sees them. -/
def changeEntry (s : Session) (source : Source) : UndoRecord → Reading (List LogEntry)
  | .insert .. => pure []
  | .delete table rows =>
    let rows := committedRows rows
    pure (if rows.isEmpty then [] else [.delete (s.table table).name rows])
  | .update table column rows _ => do
    let rows := committedRows rows
    if rows.isEmpty then pure []
    else do
      let t := s.table table
      let values ← rows.mapM fun row => t.fetch source column row s.transaction.snapshot
      pure [.update t.name column rows values]

/-- The log entries for changes, in order. -/
def changeEntries (s : Session) (source : Source) : List UndoRecord → Reading (List LogEntry)
  | [] => pure []
  | r :: rest => do
    let entries ← s.changeEntry source r
    let more ← changeEntries s source rest
    pure (entries ++ more)

/-- The log entry for the local rows of a table. -/
def insertEntry? (s : Session) (l : TableId × LocalRows) : Option LogEntry :=
  let rows := l.2.live.filterMap l.2.row?
  if rows.isEmpty then none else some (.insert (s.table l.1).name rows)

/-- The group of the commit in the log: changes of committed rows, insertions, and the time. -/
def logEntries (s : Session) (source : Source) (time : Stamp) : Reading (List LogEntry) := do
  let changes ← s.changeEntries source s.transaction.undo
  pure (changes ++ s.transaction.locals.filterMap s.insertEntry? ++ [.commit time])

/-- Adds the local rows to their table. -/
def applyLocals (time : Stamp) (db : Database) (l : TableId × LocalRows) :
    Attempt StorageError Database Unit :=
  if l.2.live.isEmpty then (.ok (), db)
  else
    db.change l.1 fun t =>
      let (r, t) := t.append l.2.columns l.2.live time
      (r.map fun _ => (), t)

/-- Gives a change of committed rows the time of the commit. -/
def applyChange (id time : Stamp) (db : Database) : UndoRecord → Attempt StorageError Database Unit
  | .insert .. => (.ok (), db)
  | .delete table rows => db.change table fun t => t.commitDelete (committedRows rows) id time
  | .update table column rows _ =>
    db.change table fun t => t.commitUpdate column (committedRows rows) id time

/-- Makes the changes of a transaction those of a commit, all of them also after a failure. -/
def apply (s : Session) (time : Stamp) : Attempt StorageError Session Unit :=
  s.onDatabase fun db =>
    let (r, db) := Attempt.all (applyLocals time) db s.transaction.locals
    let (later, db) := Attempt.all (applyChange s.transaction.id time) db s.transaction.undo
    (if r matches .error _ then r else later, db)

/-- Ends the transaction as committed. -/
def committed (s : Session) (time : Stamp) : Session where
  database := s.database.unregister s.transaction.id
  transaction := { s.transaction with state := .committed, commitTime := some time }

/-- Commits changes that are in the log. -/
def commitLogged (s : Session) (time : Stamp) : Attempt TransactionError Session Stamp :=
  let (r, s) := s.apply time
  let s : Session := ⟨s.database.publish time, s.transaction.forget⟩
  ((r.mapError .storage).map fun _ => time, s.committed time)

/-- Writes the changes to the log and commits them; the transaction stays active when they cannot be
written. -/
def commitChanges (s : Session) : Attempt TransactionError Session Stamp :=
  match s.database.nextCommit with
  | .error e => (.error e, s)
  | .ok time =>
    match s.onDatabase fun db => db.read fun source => s.logEntries source time with
    | (.error e, s) => (.error (.storage e), s)
    | (.ok entries, s) =>
      match s.database.appendLog entries with
      | .error e => (.error e, s)
      | .ok database => { s with database }.commitLogged time

/-- Commits a transaction and gives the time of the commit, that of the last commit when nothing was
changed. -/
def commit (s : Session) : Attempt TransactionError Session Stamp :=
  s.whileActive fun s =>
    match s.droppedTable? with
    | some name => s.rollback.andThen fun _ s => (.error (.storage (.tableNotFound name)), s)
    | none =>
      let time := s.database.lastCommit
      if s.transaction.undo.isEmpty then (.ok time, s.committed time) else s.commitChanges

end Session
end ColumnStore
