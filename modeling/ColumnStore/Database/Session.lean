/-
# Sessions

A session is a transaction at work on a database.  It writes for as long as the transaction is
active and not cancelled; the first write after a cancellation rolls the transaction back.

Rolling back takes the recorded changes back, the newest first.  It goes on after a change that
cannot be taken back, and reports the first of them.
-/

import ColumnStore.Database.Basic

namespace ColumnStore

/-- A transaction at work on a database. -/
structure Session where
  database : Database
  transaction : Transaction
  deriving Repr

namespace Session

/-- An attempt on the database alone. -/
def onDatabase {ε α : Type} (s : Session) (f : Database → Attempt ε Database α) :
    Attempt ε Session α :=
  let (r, database) := f s.database
  (r, { s with database })

/-- The local rows of the transaction for a table. -/
def locals? (s : Session) (table : TableId) : Option LocalRows := s.transaction.locals.get? table

/-- Puts other local rows for a table in place. -/
def setLocal (s : Session) (table : TableId) (rows : LocalRows) : Session :=
  { s with transaction := s.transaction.setLocal table rows }

/-- The table with a number. -/
def table (s : Session) (id : TableId) : Table := s.database.catalog.table id

/-- Records a change. -/
def record (s : Session) (change : UndoRecord) : Session :=
  { s with transaction := s.transaction.record change }

/-! ## Rolling back -/

/-- Takes the insertion of local rows back. -/
def undoInsert (s : Session) (table : TableId) (start count : Nat) :
    Attempt TransactionError Session Unit :=
  match s.locals? table with
  | none => (.error (.undo (.noLocalInsert count start (s.table table).name)), s)
  | some l =>
    if start + count ≤ l.count then (.ok (), s.setLocal table (l.truncate start))
    else (.error (.undo (.noLocalInsert count start (s.table table).name)), s)

/-- Takes deletions back, those of local rows and those in the table. -/
def undoDelete (s : Session) (table : TableId) (rows : List Nat) :
    Attempt TransactionError Session Unit :=
  let s :=
    match s.locals? table with
    | none => s
    | some l =>
      let own := rows.reverse.filter isLocalRow
      s.setLocal table (own.foldl (fun l row => l.undelete (row - firstLocalRow)) l)
  s.onDatabase fun db =>
    db.change table fun t => t.revertDelete s.transaction.id (committedRows rows).reverse

/-- Takes the update of a local row back. -/
def undoLocalUpdate (s : Session) (table : TableId) (column offset : Nat) (before : Scalar) :
    Attempt TransactionError Session Unit :=
  match s.locals? table with
  | none => (.error (.undo (.noLocalRow offset (s.table table).name)), s)
  | some l =>
    if l.contains offset then
      let (r, l) := l.set column offset before
      (r.mapError .vector, s.setLocal table l)
    else (.error (.undo (.noLocalRow offset (s.table table).name)), s)

/-- Takes updates of rows back, in the given order, up to the first that cannot be. -/
def undoUpdates (table : TableId) (column : Nat) (s : Session) :
    List (Nat × Scalar) → Attempt TransactionError Session Unit
  | [] => (.ok (), s)
  | (row, before) :: rest =>
    let attempt :=
      if isLocalRow row then s.undoLocalUpdate table column (row - firstLocalRow) before
      else
        s.onDatabase fun db => db.changeReading table fun source t =>
          t.revertUpdate source column row s.transaction.snapshot before
    attempt.andThen fun _ s => undoUpdates table column s rest

/-- Takes a change back. -/
def undo (s : Session) : UndoRecord → Attempt TransactionError Session Unit
  | .insert table start count => s.undoInsert table start count
  | .delete table rows => s.undoDelete table rows
  | .update table column rows before =>
    if rows.length ≠ before.length then
      (.error (.undo (.beforeImages rows.length before.length)), s)
    else undoUpdates table column s (rows.zip before).reverse

/-- Takes all changes back and ends the transaction.  To roll back once more changes nothing. -/
def rollback (s : Session) : Attempt TransactionError Session Unit :=
  if s.transaction.state = .aborted then (.ok (), s)
  else
    match s.transaction.checkActive with
    | .error e => (.error e, s)
    | .ok () =>
      let (r, s) := Attempt.all undo s s.transaction.undo.reverse
      (r, {
        database := s.database.unregister s.transaction.id
        transaction := { s.transaction.forget with state := .aborted } })

/-- Leaves a session for good; a transaction that is still active is rolled back. -/
def abandon (s : Session) : Database :=
  if s.transaction.state = .active then s.rollback.2.database else s.database

/-! ## Writing -/

/-- Rolls back and says that the transaction was cancelled. -/
def stop {α : Type} (s : Session) : Attempt TransactionError Session α :=
  s.rollback.andThen fun _ s => (.error .cancelled, s)

/-- Goes on only while the transaction is active and not cancelled. -/
def whileActive {α : Type} (s : Session) (write : Session → Attempt TransactionError Session α) :
    Attempt TransactionError Session α :=
  match s.transaction.checkActive with
  | .error e => (.error e, s)
  | .ok () => if s.transaction.cancel.raised then s.stop else write s

/-- Refuses row numbers that stand for no local row of a table. -/
def checkLocalRows (s : Session) (table : TableId) (rows : List Nat) :
    Except TransactionError Unit :=
  match rows.find? (!s.transaction.locals.hasRow table ·) with
  | none => .ok ()
  | some row => .error (.storage (.rowOutOfRange (s.table table).name row))

/-- Keeps the rows of a chunk for insertion at the commit, and says how many. -/
def insert (s : Session) (table : TableId) (c : Chunk) : Attempt TransactionError Session Nat :=
  s.whileActive fun s =>
    if c.isEmpty then (.ok 0, s)
    else
      let l := (s.locals? table).getD (.new (s.table table).types)
      match l.append c with
      | (.error e, l) => (.error (.storage e), s.setLocal table l)
      | (.ok (start, stop), l) =>
        (.ok (stop - start), (s.setLocal table l).record (.insert table start (stop - start)))

/-- Marks local rows deleted and gives those that were not before. -/
def deleteLocals (l : LocalRows) : List Nat → List Nat × LocalRows
  | [] => ([], l)
  | row :: rest =>
    let (fresh, l) := l.delete (row - firstLocalRow)
    let (more, l) := deleteLocals l rest
    (if fresh then row :: more else more, l)

/-- Marks local rows of a table deleted and gives those that were not before. -/
def deleteOwn (s : Session) (table : TableId) (rows : List Nat) : List Nat × Session :=
  match s.locals? table with
  | none => ([], s)
  | some l => let (fresh, l) := deleteLocals l rows; (fresh, s.setLocal table l)

/-- Deletes rows and says how many; those that the transaction sees as deleted are skipped. -/
def delete (s : Session) (table : TableId) (rows : List Nat) :
    Attempt TransactionError Session Nat :=
  s.whileActive fun s =>
    let own := rows.filter isLocalRow
    match s.checkLocalRows table own with
    | .error e => (.error e, s)
    | .ok () =>
      let mark (t : Table) :=
        Attempt.ofExcept t (t.delete (committedRows rows) s.transaction.snapshot)
      (s.onDatabase fun db => db.change table mark).andThen fun marked s =>
        let (fresh, s) := s.deleteOwn table own
        let deleted := marked ++ fresh
        (.ok deleted.length, if deleted.isEmpty then s else s.record (.delete table deleted))

/-- Refuses a vector whose values do not fit rows of a column. -/
def checkValues (t : Table) (column : Nat) (rows : List Nat) (values : ValueVector) :
    Except TransactionError Unit :=
  match t.types[column]? with
  | none => .error (.storage (.columnOutOfRange t.name column))
  | some type =>
    if values.type ≠ type then .error (.vector (.typeMismatch type values.type.render))
    else if values.capacity < rows.length then
      .error (.vector (.indexOutOfBounds (rows.length - 1) values.capacity))
    else .ok ()

/-- Writes values over a column of local rows, up to the first that is refused, and gives the rows
written with the values before.  Deleted rows are skipped. -/
def updateLocals (column : Nat) (l : LocalRows) :
    List (Nat × Scalar) → Attempt TransactionError LocalRows (List (Nat × Scalar))
  | [] => (.ok [], l)
  | (row, value) :: rest =>
    let offset := row - firstLocalRow
    if l.isDeleted offset then updateLocals column l rest
    else
      match l.get? column offset with
      | none => (.error (.vector .outOfRange), l)
      | some before =>
        match l.set column offset value with
        | (.error e, l) => (.error (.vector e), l)
        | (.ok (), l) =>
          let (r, l) := updateLocals column l rest
          (r.map ((row, before) :: ·), l)

/-- Writes values over a column of local rows of a table. -/
def updateOwn (s : Session) (table : TableId) (column : Nat) (rows : List (Nat × Scalar)) :
    Attempt TransactionError Session (List (Nat × Scalar)) :=
  match s.locals? table with
  | none => (.ok [], s)
  | some l => let (r, l) := updateLocals column l rows; (r, s.setLocal table l)

/-- Writes values over a column of rows and says how many; those that the transaction sees as
deleted are skipped. -/
def update (s : Session) (table : TableId) (column : Nat) (rows : List Nat) (values : ValueVector) :
    Attempt TransactionError Session Nat :=
  s.whileActive fun s =>
    match checkValues (s.table table) column rows values, values.firstValues? rows.length with
    | .error e, _ => (.error e, s)
    | .ok (), none => (.error (.vector .outOfRange), s)
    | .ok (), some values =>
      let (own, others) := (rows.zip values).partition (isLocalRow ·.1)
      match s.checkLocalRows table (own.map (·.1)) with
      | .error e => (.error e, s)
      | .ok () =>
        let write source (t : Table) :=
          t.update source column (others.map (·.1)) (others.map (·.2)) s.transaction.snapshot
        (s.onDatabase fun db => db.changeReading table write).andThen fun (rows, before) s =>
          (s.updateOwn table column own).andThen fun more s =>
            let rows := rows ++ more.map (·.1)
            let before := before ++ more.map (·.2)
            (.ok rows.length,
              if rows.isEmpty then s else s.record (.update table column rows before))

end Session
end ColumnStore
