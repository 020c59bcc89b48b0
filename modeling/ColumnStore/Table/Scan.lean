/-
# Scans

A scan reads some columns of the rows of a table that a snapshot sees and that pass filters, in the
order of the rows: first the committed rows, segment by segment and at most `step` rows at a time,
then the local rows of the reader.  Segments that their statistics rule out are not read.
-/

import ColumnStore.Table.Filter
import ColumnStore.Table.LocalRows

namespace ColumnStore

/-- Rows that a scan has read, and their numbers. -/
structure ScanChunk where
  chunk : Chunk
  ids : List Nat
  deriving Repr, Inhabited

/-- What to read of a table. -/
structure Scan where
  table : Table
  snapshot : Snapshot
  columns : List Nat
  filters : Option BoundFilters
  localRows : Option LocalRows := none
  cancel : CancelFlag := {}
  step : Nat
  deriving Repr

namespace Scan

/-- A scan of columns with filters. -/
def new (table : Table) (snapshot : Snapshot) (columns : List Nat) (filters : List Filter)
    (localRows : Option LocalRows) (cancel : CancelFlag) (vectorSize : Nat) :
    Except StorageError Scan := do
  match columns.find? (table.definitions.length ≤ ·) with
  | some column => throw (.columnOutOfRange table.name column)
  | none => pure ()
  let filters ← BoundFilters.bind table filters
  pure { table, snapshot, columns, filters, localRows, cancel, step := max vectorSize 1 }

/-- The parts of at most `step` rows of the rows from `start` up to `stop`. -/
def pieces (step start stop : Nat) : List (Nat × Nat) :=
  (List.range ((stop - start + step - 1) / step)).map fun i =>
    (start + i * step, min step (stop - (start + i * step)))

/-- The parts to read: the first row of each, and how many rows. -/
def plan (s : Scan) : List (Nat × Nat) :=
  let kept := s.table.segmentRanges.zipIdx.filter fun (_, i) =>
    match s.filters with
    | some f => f.prune s.table i != .alwaysFalse
    | none => true
  kept.flatMap fun ((start, stop), _) => pieces s.step start stop

/-- The parts to read, if a full part would end at a row with a number of 64 bits. -/
def plan? (s : Scan) : Option (List (Nat × Nat)) :=
  if s.plan.all (·.1 + s.step < UInt64.size) then some s.plan else none

/-- The columns to read, those of the filters included. -/
def needed (s : Scan) : List Nat :=
  let columns := s.columns ++ (s.filters.map (·.columns)).getD []
  (List.range s.table.definitions.length).filter columns.contains

/-- The vectors of columns among those that were read. -/
def pick (s : Scan) (vectors : List (Nat × ValueVector)) (columns : List Nat) :
    Except StorageError (List ValueVector) :=
  columns.mapM fun i =>
    match vectors.lookup i with
    | some v => .ok v
    | none => .error (.columnOutOfRange s.table.name i)

/-- The chunk of the rows of a part that pass the filters, none without any. -/
def finish (s : Scan) (vectors : List (Nat × ValueVector)) (count : Nat) (visible : Selection)
    (firstId : Nat) : Except StorageError (Option ScanChunk) := do
  let selection ←
    match s.filters with
    | none => pure visible
    | some f => do
      let inputs ← s.pick vectors f.columns
      f.apply inputs count visible
  if selection.isEmpty then pure none
  else
    let columns ← s.pick vectors s.columns
    match do Chunk.slice (← Chunk.ofVectors columns count) selection with
    | .error e => throw (.vector e)
    | .ok chunk => pure (some ⟨chunk, selection.map (firstId + ·)⟩)

/-- Reads `count` rows of columns from `start` on. -/
def readColumns (s : Scan) (source : Source) (start count : Nat) :
    List Nat → Reading (List (Nat × ValueVector))
  | [] => pure []
  | i :: rest => do
    let c ← Reading.of (s.table.column i)
    let v ← c.scan source start count s.snapshot
    let vs ← readColumns s source start count rest
    pure ((i, v) :: vs)

/-- Reads a part of the committed rows. -/
def readPart (s : Scan) (source : Source) (start count : Nat) : Reading (Option ScanChunk) := do
  let visible ← Reading.of (Table.present (s.table.versions.visible? start count s.snapshot))
  if visible.isEmpty then pure none
  else do
    let vectors ← s.readColumns source start count s.needed
    Reading.of (s.finish vectors count visible start)

/-- Copies `count` local rows of columns from `start` on. -/
def localColumns (l : LocalRows) (start count : Nat) (columns : List Nat) :
    Except StorageError (List (Nat × ValueVector)) :=
  columns.mapM fun i =>
    match l.columns[i]? with
    | none => .error (.vector .outOfRange)
    | some v =>
      match (ValueVector.new v.type count).copyRows 0 v (List.range' start count) with
      | (.ok (), copy) => .ok (i, copy)
      | (.error e, _) => .error (.vector e)

/-- Reads a part of the local rows. -/
def readLocal (s : Scan) (l : LocalRows) (start count : Nat) :
    Except StorageError (Option ScanChunk) := do
  let visible := (List.range count).filter fun i => !l.isDeleted (start + i)
  if visible.isEmpty then pure none
  else do
    let vectors ← localColumns l start count s.needed
    s.finish vectors count visible (firstLocalRow + start)

/-- Reads parts one after the other; the cancel flag is looked at before each. -/
def readAll (s : Scan) (read : Nat → Nat → Reading (Option ScanChunk)) :
    List (Nat × Nat) → Reading (Except TransactionError (List ScanChunk))
  | [] => pure (.ok [])
  | (start, count) :: rest =>
    if s.cancel.raised then pure (.error .cancelled)
    else do
      match ← (read start count).attempt with
      | .error e => pure (.error (.storage e))
      | .ok part => do
        let more ← readAll s read rest
        pure (more.map (part.toList ++ ·))

/-- Runs a scan. -/
def run (s : Scan) (source : Source) : Reading (Except TransactionError (List ScanChunk)) := do
  let plan ← Reading.of (Table.present s.plan?)
  match ← s.readAll (s.readPart source) plan with
  | .error e => pure (.error e)
  | .ok committed =>
    match s.localRows with
    | none => pure (.ok committed)
    | some l => do
      let readOwn start count := Reading.of (s.readLocal l start count)
      let own ← s.readAll readOwn (pieces s.step 0 l.count)
      pure (own.map (committed ++ ·))

/-- All columns of the committed rows of a table. -/
def readCommitted (t : Table) (vectorSize : Nat) (source : Source) :
    Reading (Except TransactionError (List ScanChunk)) :=
  match Scan.new t Snapshot.committed (List.range t.columns.length) [] none {} vectorSize with
  | .ok s => s.run source
  | .error e => pure (.error (.storage e))

end Scan
end ColumnStore
