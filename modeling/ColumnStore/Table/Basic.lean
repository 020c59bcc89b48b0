/-
# Tables

A table has columns of as many rows each, cut into segments at the same rows, and the versions of
its rows.  Rows are added when their transaction commits.  Deletions and updates of committed rows
are made at once, with the number of the transaction for a stamp, which the commit replaces by its
time.
-/

import ColumnStore.Segment.Column
import ColumnStore.Text.Quoted
import ColumnStore.Transaction.Error
import ColumnStore.Vector.Chunk
import ColumnStore.Version.Rows

namespace ColumnStore

/-- A table. -/
structure Table where
  name : String
  definitions : List ColumnDefinition
  policy : SegmentPolicy
  dropped : Bool := false
  columns : List Column
  versions : RowVersions
  deriving Repr, Inhabited

namespace Table

/-- The number of rows, deleted ones included. -/
def rows (t : Table) : Nat := t.versions.size

def types (t : Table) : List ColumnType := t.definitions.map (·.type)

/-- The rows of each segment: the first and the one past the last. -/
def segmentRanges (t : Table) : List (Nat × Nat) :=
  match t.columns with
  | [] => []
  | c :: _ => c.segments.map fun s => (s.start, s.stop)

/-- A line that describes a table. -/
def describe (t : Table) : String :=
  let column (d : ColumnDefinition) :=
    "ColumnDefinition \x7b name: " ++ Text.quote d.name ++
    ", logical_type: " ++ d.type.describe ++ " \x7d"
  "DataTable \x7b name: " ++ Text.quote t.name ++ ", columns: [" ++
    ", ".intercalate (t.definitions.map column) ++ "], dropped: " ++ toString t.dropped ++ " \x7d"

/-- The versions of rows that columns were loaded with; there must be as many columns as expected,
all of one length. -/
def loadedVersions (name : String) (columns : List Column) (expected : Nat) :
    Except StorageError RowVersions :=
  let place := "table " ++ name
  if columns.length ≠ expected then
    .error (.corruption place (.columnStores columns.length expected))
  else
    let rows := (columns.head?.map (·.rows)).getD 0
    match columns.find? (·.rows ≠ rows) with
    | some c => .error (.corruption place (.columnRows c.rows rows))
    | none =>
      match RowVersions.committed? rows with
      | some versions => .ok versions
      | none => .error (.vector .outOfRange)

/-- A table of given columns, all rows of which every snapshot sees. -/
def ofColumns (name : String) (definitions : List ColumnDefinition) (policy : SegmentPolicy)
    (columns : List Column) : Except StorageError Table := do
  if definitions.isEmpty then throw (.noColumns name)
  let versions ← loadedVersions name columns definitions.length
  pure { name, definitions, policy, columns, versions }

/-- A table without rows. -/
def new (name : String) (definitions : List ColumnDefinition) (policy : SegmentPolicy) :
    Except StorageError Table := do
  let columns ← definitions.mapM fun d => Column.new d.type policy
  ofColumns name definitions policy columns

/-- Puts other columns in place, all rows of which every snapshot sees. -/
def replaceColumns (t : Table) (columns : List Column) : Except StorageError Table := do
  let versions ← loadedVersions t.name columns t.definitions.length
  pure { t with columns, versions }

def checkRow (t : Table) (row : Nat) : Except StorageError Unit :=
  if row < t.rows then .ok () else .error (.rowOutOfRange t.name row)

/-- The column with a number. -/
def column (t : Table) (i : Nat) : Except StorageError Column :=
  match t.columns[i]? with
  | some c => .ok c
  | none => .error (.columnOutOfRange t.name i)

def withColumn (t : Table) (i : Nat) (c : Column) : Table := { t with columns := t.columns.set i c }

/-- A position that must be there. -/
def present {α : Type} : Option α → Except StorageError α
  | some a => .ok a
  | none => .error (.vector .outOfRange)

/-- Refuses vectors that are not of the types of the columns. -/
def checkTypes : List ColumnType → List ValueVector → Except StorageError Unit
  | t :: ts, v :: vs =>
    if v.type = t then checkTypes ts vs else .error (.vector (.typeMismatch t v.type.render))
  | _, _ => .ok ()

/-- Adds the same rows of vectors to columns, up to the first column that refuses. -/
def appendColumns (rows : Selection) :
    List Column → List ValueVector → Attempt StorageError (List Column) Unit
  | c :: cs, v :: vs =>
    match c.append v rows with
    | (.ok (), c) => let (r, cs) := appendColumns rows cs vs; (r, c :: cs)
    | (.error e, c) => (.error e, c :: cs)
  | cs, _ => (.ok (), cs)

/-- Adds rows of vectors with a stamp, and gives the number of the first and the one past the last.
-/
def append (t : Table) (columns : List ValueVector) (rows : Selection) (stamp : Stamp) :
    Attempt StorageError Table (Nat × Nat) :=
  if columns.length ≠ t.definitions.length then
    (.error (.vector (.columnCount t.definitions.length columns.length)), t)
  else
    match checkTypes t.types columns with
    | .error e => (.error e, t)
    | .ok () =>
      match appendColumns rows t.columns columns with
      | (.error e, columns) => (.error e, { t with columns })
      | (.ok (), columns) =>
        (.ok (t.rows, t.rows + rows.length),
          { t with columns, versions := t.versions.append rows.length stamp })

/-- Adds rows with a stamp. -/
def appendRows (t : Table) (rows : List Row) (stamp : Stamp) :
    Attempt StorageError Table (Nat × Nat) :=
  match Chunk.ofRows t.types rows with
  | .error e => (.error (.vector e), t)
  | .ok c => t.append c.columns (List.range c.cardinality) stamp

/-- Whether a row of a column has an update that a snapshot does not see. -/
def hasHiddenUpdate (c : Column) (row : Nat) (s : Snapshot) : Bool :=
  match c.latestUpdate? row with
  | some stamp => !s.sees stamp
  | none => false

/-- Whether a writer may write to a row, `false` when it sees the row as deleted.  The writer must
see the newest update of each of the given columns. -/
def checkWrite (t : Table) (columns : List Column) (row : Nat) (s : Snapshot) :
    Except TransactionError Bool := do
  (t.checkRow row).mapError .storage
  match ← (present (t.versions.checkWrite? row s)).mapError .storage with
  | .deleted => pure false
  | .conflict => throw (.writeConflict t.name row)
  | .writable =>
    if columns.any (hasHiddenUpdate · row s) then throw (.writeConflict t.name row)
    pure true

/-- Marks rows deleted by the transaction of a snapshot, all or none, and gives the rows marked.
Rows that the writer sees as deleted are skipped. -/
def delete (t : Table) (rows : List Nat) (s : Snapshot) :
    Except TransactionError (List Nat × Table) := do
  let targets ← rows.eraseDups.filterM fun row => t.checkWrite t.columns row s
  let versions := targets.foldl (fun v row => v.setDeleted row s.transaction) t.versions
  pure (targets, { t with versions })

/-- Changes the versions of rows one after the other, up to the first row that is not there. -/
def changeVersions (t : Table) (f : RowVersions → Nat → Option RowVersions) :
    List Nat → Attempt StorageError Table Unit
  | [] => (.ok (), t)
  | row :: rest =>
    match do t.checkRow row; present (f t.versions row) with
    | .error e => (.error e, t)
    | .ok versions => changeVersions { t with versions } f rest

/-- Gives deletions by a transaction the time of its commit. -/
def commitDelete (t : Table) (rows : List Nat) (transaction time : Stamp) :
    Attempt StorageError Table Unit :=
  t.changeVersions (fun v row => v.commitDelete? row transaction time) rows

/-- Deletes rows for a transaction that has committed. -/
def deleteCommitted (t : Table) (rows : List Nat) (time : Stamp) :
    Attempt StorageError Table Unit :=
  t.changeVersions (fun v row => v.mark? row time) rows

/-- Takes deletions by a transaction back, up to the first that is not there. -/
def revertDelete (t : Table) (transaction : Stamp) :
    List Nat → Attempt TransactionError Table Unit
  | [] => (.ok (), t)
  | row :: rest =>
    match t.versions.unmark? row transaction with
    | some (true, versions) => revertDelete { t with versions } transaction rest
    | _ => (.error (.undo (.noDeletion row t.name transaction)), t)

/-- The rows to update and their new values; rows that the writer sees as deleted are left out. -/
def updateTargets (t : Table) (c : Column) (type : ColumnType) (s : Snapshot) :
    List (Nat × Scalar) → Except TransactionError (List (Nat × Scalar))
  | [] => .ok []
  | (row, value) :: rest => do
    if ← t.checkWrite [c] row s then
      if !value.fits type then throw (.vector (.typeMismatch type value.render))
      let targets ← updateTargets t c type s rest
      pure ((row, value) :: targets)
    else updateTargets t c type s rest

/-- Writes values over rows of a column, and gives the values before, up to the first row that
cannot be read. -/
def updateRows (source : Source) (s : Snapshot) (c : Column) :
    List (Nat × Scalar) → Reading (Attempt StorageError Column (List Scalar))
  | [] => pure (.ok [], c)
  | (row, value) :: rest => do
    match ← (c.fetch source row s).attempt with
    | .error e => pure (.error e, c)
    | .ok before =>
      match c.update row ⟨s.transaction, value⟩ with
      | .error e => pure (.error e, c)
      | .ok c => do
        let (r, c) ← updateRows source s c rest
        pure (r.map (before :: ·), c)

/-- Writes values over rows of a column for the transaction of a snapshot, and gives the rows
written and the values before.  Refused rows are found before anything is written. -/
def update (t : Table) (source : Source) (i : Nat) (rows : List Nat) (values : List Scalar)
    (s : Snapshot) : Reading (Attempt TransactionError Table (List Nat × List Scalar)) :=
  match t.column i with
  | .error e => pure (.error (.storage e), t)
  | .ok c =>
    if rows.length ≠ values.length then
      pure (.error (.vector (.indexOutOfBounds rows.length values.length)), t)
    else
      match t.updateTargets c (t.types.getD i c.type) s (rows.zip values) with
      | .error e => pure (.error e, t)
      | .ok targets => do
        let (r, c) ← updateRows source s c targets
        pure ((r.mapError .storage).map fun before => (targets.map (·.1), before), t.withColumn i c)

/-- Changes rows of a column one after the other, up to the first that is refused. -/
def changeColumn {α : Type} (f : Column → α → Except StorageError Column) (c : Column) :
    List α → Attempt StorageError Column Unit
  | [] => (.ok (), c)
  | a :: rest =>
    match f c a with
    | .error e => (.error e, c)
    | .ok c => changeColumn f c rest

/-- Gives updates by a transaction the time of its commit. -/
def commitUpdate (t : Table) (i : Nat) (rows : List Nat) (transaction time : Stamp) :
    Attempt StorageError Table Unit :=
  match t.column i with
  | .error e => (.error e, t)
  | .ok c =>
    let (r, c) := changeColumn (fun c row => c.commitUpdate row transaction time) c rows
    (r, t.withColumn i c)

/-- Takes the newest update of a row by the transaction of a snapshot back; the transaction must
then see the value that was there before. -/
def revertUpdate (t : Table) (source : Source) (i row : Nat) (s : Snapshot) (before : Scalar) :
    Reading (Attempt TransactionError Table Unit) :=
  match t.columns[i]? with
  | none => pure (.error (.undo (.noColumn i t.name)), t)
  | some c =>
    match c.revertUpdate row s.transaction with
    | .error e => pure (.error (.storage e), t)
    | .ok (none, _) => pure (.error (.undo (.noVersion row i t.name s.transaction)), t)
    | .ok (some _, c) => do
      let t := t.withColumn i c
      match ← (c.fetch source row s).attempt with
      | .error e => pure (.error (.storage e), t)
      | .ok restored =>
        if restored.same before then pure (.ok (), t)
        else pure (.error (.undo (.otherValue row i t.name restored.render before.render)), t)

/-- Writes values over rows for a transaction that has committed. -/
def updateCommitted (t : Table) (i : Nat) (rows : List Nat) (values : List Scalar) (time : Stamp) :
    Attempt StorageError Table Unit :=
  match t.column i with
  | .error e => (.error e, t)
  | .ok c =>
    if rows.length ≠ values.length then
      (.error (.corruption "update record" (.updateRecord rows.length values.length)), t)
    else
      let write (c : Column) (x : Nat × Scalar) := do t.checkRow x.1; c.update x.1 ⟨time, x.2⟩
      let (r, c) := changeColumn write c (rows.zip values)
      (r, t.withColumn i c)

/-- The value of a column of a row as a snapshot sees it. -/
def fetch (t : Table) (source : Source) (i row : Nat) (s : Snapshot) : Reading Scalar := do
  let c ← Reading.of (t.column i)
  Reading.of (t.checkRow row)
  c.fetch source row s

/-- Adds the given ones of `count` rows from `start` on to fresh columns. -/
def copyVisible (source : Source) (s : Snapshot) (start count : Nat) (visible : List Nat) :
    List Column → List Column → Reading (List Column)
  | c :: cs, fresh :: more => do
    let values ← c.scan source start count s
    let (r, fresh) := fresh.append values visible
    Reading.of r
    let more ← copyVisible source s start count visible cs more
    pure (fresh :: more)
  | _, fresh => pure fresh

/-- Copies the rows that a snapshot sees into fresh columns, `step` rows at a time. -/
def materializeFrom (t : Table) (source : Source) (s : Snapshot) (step start : Nat)
    (fresh : List Column) : Reading (List Column) :=
  if _h : t.rows ≤ start ∨ step = 0 then pure fresh
  else do
    let count := min step (t.rows - start)
    let visible ← Reading.of (present (t.versions.visible? start count s))
    let fresh ←
      if visible.isEmpty then pure fresh
      else copyVisible source s start count visible t.columns fresh
    materializeFrom t source s step (start + count) fresh
termination_by t.rows - start

/-- Fresh columns of the rows that a snapshot sees, with their updates and without the deleted rows.
-/
def materialize (t : Table) (source : Source) (s : Snapshot) (vectorSize : Nat) :
    Reading (List Column) := do
  let fresh ← Reading.of (t.types.mapM fun type => Column.new type t.policy)
  t.materializeFrom source s (max vectorSize 1) 0 fresh

end Table
end ColumnStore
