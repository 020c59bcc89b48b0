/-
# Columns

The rows of a column are divided into segments without gaps, the first starting with row 0.  Rows
are added to the last segment; when it is full it is sealed and the next one begins.
-/

import ColumnStore.Segment.Basic

namespace ColumnStore

/-- All rows of a column. -/
structure Column where
  type : ColumnType
  policy : SegmentPolicy
  segments : List Segment := []
  rows : Nat := 0
  deriving Repr

namespace Column

/-- A column without rows; lists are refused. -/
def new (t : ColumnType) (policy : SegmentPolicy) : Except StorageError Column :=
  if t.isNested then .error (.unsupportedType t) else .ok { type := t, policy }

/-- The number of rows in consecutive segments, the first of which starts with row `start`. -/
def rowsFrom (start : Nat) : List Segment → Except StorageError Nat
  | [] => .ok start
  | s :: rest =>
    if s.start ≠ start then .error (.corruption "column segments" (.segmentStart s.start start))
    else
      match s.stop? with
      | some stop => rowsFrom stop rest
      | none => .error (.vector .outOfRange)

/-- A column of given segments. -/
def ofSegments (t : ColumnType) (policy : SegmentPolicy) (segments : List Segment) :
    Except StorageError Column := do
  let rows ← rowsFrom 0 segments
  pure { type := t, policy, segments, rows }

/-- A segment that takes more rows, and those in front of it: the last one if it takes any, else a
new one. -/
def openSegment (c : Column) : Except StorageError (List Segment × Segment) :=
  match c.segments.getLast? with
  | some s =>
    if s.isFull || !s.isOpen then (Segment.new c.type c.rows c.policy.capacity).map (c.segments, ·)
    else .ok (c.segments.dropLast, s)
  | none => (Segment.new c.type c.rows c.policy.capacity).map ([], ·)

/-- Adds rows of a vector of the type of the column, up to the first that is refused. -/
def appendRows (c : Column) (source : ValueVector) (rows : Selection) :
    Attempt StorageError Column Unit :=
  if _h : rows = [] then (.ok (), c)
  else
    match c.openSegment with
    | .error e => (.error e, c)
    | .ok (before, s) =>
      match s.append source rows with
      | (.error e, s) => (.error e, { c with segments := before ++ [s] })
      | (.ok taken, s) =>
        let grown := c.rows + taken
        match if s.isFull then s.toSealed c.policy.compression else .ok s with
        | .error e => (.error e, { c with segments := before ++ [s], rows := grown })
        | .ok s =>
          let c := { c with segments := before ++ [s], rows := grown }
          if taken = 0 then (.ok (), c) else appendRows c source (rows.drop taken)
termination_by rows.length
decreasing_by
  have := List.length_pos_iff.mpr _h
  simp only [List.length_drop]
  omega

/-- Adds rows of a vector. -/
def append (c : Column) (source : ValueVector) (rows : Selection) :
    Attempt StorageError Column Unit :=
  if source.type ≠ c.type then
    (.error (.vector (.typeMismatch c.type source.type.render)), c)
  else c.appendRows source rows

/-- A column of given values. -/
def ofValues (t : ColumnType) (policy : SegmentPolicy) (values : List Scalar) :
    Except StorageError Column := do
  let v ← (ValueVector.ofValues t values).mapError .vector
  let (r, c) := (← new t policy).append v (List.range v.capacity)
  r.map fun _ => c

/-- The number of the segment with a row. -/
def segmentIndex? (c : Column) (row : Nat) : Option Nat :=
  if c.rows ≤ row then none else c.segments.findIdx? (row < ·.stop)

/-- The number of the segment with a row, and the place of the row in it. -/
def locate (c : Column) (row : Nat) : Except StorageError (Nat × Segment × Nat) :=
  match c.segmentIndex? row with
  | none => .error (.rowOutOfRange "" row)
  | some i =>
    match c.segments[i]? with
    | none => .error (.rowOutOfRange "" row)
    | some s => .ok (i, s, row - s.start)

/-- Copies the rows from `start` up to `stop` that are in the given segments into the slots of a
vector; row `start` goes to `slot`. -/
def scanSegments (source : Source) (start stop : Nat) (snapshot : Snapshot) (slot : Nat)
    (out : ValueVector) : List Segment → Reading ValueVector
  | [] => pure out
  | s :: rest => do
    let first := max start s.start
    let last := min stop s.stop
    if first < last then
      let out ←
        s.scan source (first - s.start) (last - s.start) snapshot out (slot + (first - start))
      scanSegments source start stop snapshot slot out rest
    else scanSegments source start stop snapshot slot out rest

/-- Refuses rows that are not in a column.  Row numbers have 64 bits. -/
def checkRange (c : Column) (start count : Nat) : Except StorageError Unit :=
  if UInt64.size ≤ start + count then .error (.vector .outOfRange)
  else if c.rows < start + count then .error (.rowOutOfRange "" (start + count - 1))
  else .ok ()

/-- Copies `count` rows from `start` on as a snapshot sees them into the slots of a vector. -/
def scanInto (c : Column) (source : Source) (out : ValueVector) (slot start count : Nat)
    (snapshot : Snapshot) : Reading ValueVector := do
  Reading.of (c.checkRange start count)
  scanSegments source start (start + count) snapshot slot out c.segments

/-- The values of `count` rows from `start` on as a snapshot sees them. -/
def scan (c : Column) (source : Source) (start count : Nat) (snapshot : Snapshot) :
    Reading ValueVector :=
  if !ValueVector.canBeNew c.type count then Reading.fail (.vector .outOfRange)
  else do
    Reading.of (c.checkRange start count)
    c.scanInto source (.new c.type count) 0 start count snapshot

/-- The value of a row as a snapshot sees it. -/
def fetch (c : Column) (source : Source) (row : Nat) (snapshot : Snapshot) : Reading Scalar := do
  let (_, s, i) ← Reading.of (c.locate row)
  s.fetch source i snapshot

/-- Writes a value over a row. -/
def update (c : Column) (row : Nat) (v : Version) : Except StorageError Column :=
  if !v.value.fits c.type then .error (.vector (.typeMismatch c.type v.value.render))
  else do
    let (i, s, place) ← c.locate row
    pure { c with segments := c.segments.set i (s.update place v) }

/-- Gives the updates of a row by a transaction the time of its commit. -/
def commitUpdate (c : Column) (row : Nat) (transaction time : Stamp) :
    Except StorageError Column := do
  let (i, s, place) ← c.locate row
  pure { c with segments := c.segments.set i (s.commitUpdate place transaction time) }

/-- Takes back the newest update of a row by a transaction. -/
def revertUpdate (c : Column) (row : Nat) (transaction : Stamp) :
    Except StorageError (Option Scalar × Column) := do
  let (i, s, place) ← c.locate row
  let (x, s) := s.revertUpdate place transaction
  pure (x, { c with segments := c.segments.set i s })

/-- The stamp of the newest update of a row. -/
def latestUpdate? (c : Column) (row : Nat) : Option Stamp :=
  match c.locate row with
  | .ok (_, s, place) => s.latestUpdate? place
  | .error _ => none

end Column
end ColumnStore
