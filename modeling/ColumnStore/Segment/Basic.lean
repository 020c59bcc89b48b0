/-
# Segments

A segment holds consecutive rows of one column.  It is filled in memory, row by row, until it is
full or sealed; from then on its values do not change.  A segment of a checkpoint is read from a
block file.  Updates are kept beside the values, in every state.
-/

import ColumnStore.Attempt
import ColumnStore.Segment.Overlay
import ColumnStore.Segment.Statistics
import ColumnStore.Storage.Reading

namespace ColumnStore

/-- Where the values of a segment are. -/
inductive SegmentData where
  /-- In memory, with room for more. -/
  | buffer (values : ValueVector)
  /-- In memory and encoded. -/
  | sealed (image : Bytes) (values : ValueVector)
  /-- In a block file. -/
  | stored (values : StoredValues)
  deriving Repr

/-- How segments are made: their rows, the compression to try and its level. -/
structure SegmentPolicy where
  capacity : Nat
  compression : Scheme
  level : Int := 3
  deriving DecidableEq, Repr, Inhabited

/-- Consecutive rows of a column, from row `start` on. -/
structure Segment where
  type : ColumnType
  start : Nat
  count : Nat
  capacity : Nat
  statistics : Statistics
  data : SegmentData
  overlay : Overlay := {}
  deriving Repr

namespace Segment

/-- An empty segment that can be filled; lists are refused. -/
def new (t : ColumnType) (start capacity : Nat) : Except StorageError Segment :=
  if t.isNested then .error (.unsupportedType t)
  else if !ValueVector.hasRoom t capacity then .error (.vector .outOfRange)
  else
    .ok { type := t, start, count := 0, capacity, statistics := { type := t },
          data := .buffer (.new t capacity) }

/-- A segment whose values are in a block file. -/
def ofStored (start : Nat) (statistics : Statistics) (values : StoredValues) : Segment :=
  { type := values.type, start, count := values.rows, capacity := values.rows, statistics,
    data := .stored values }

/-- The row past the last one. -/
def stop (s : Segment) : Nat := s.start + s.count

/-- The row past the last one, if it has a number of 64 bits. -/
def stop? (s : Segment) : Option Nat := if s.stop < UInt64.size then some s.stop else none

/-- Whether rows can be added as long as there is room. -/
def isOpen (s : Segment) : Bool :=
  match s.data with
  | .buffer _ => true
  | _ => false

def isFull (s : Segment) : Bool := s.capacity ≤ s.count

/-- The state of a segment in a word. -/
def state (s : Segment) : String :=
  match s.data with
  | .buffer _ => "transient"
  | .sealed .. => "sealed"
  | .stored _ => "persistent"

/-- A line that describes a segment. -/
def describe (s : Segment) : String :=
  "ColumnSegment \x7b type: " ++ s.type.describe ++ ", start: " ++ toString s.start ++
    ", count: " ++ toString s.count ++ ", state: \"" ++ s.state ++
    "\", updates: " ++ toString s.overlay.size ++ " \x7d"

/-- Copies rows of a vector into the slots of a buffer from `i` on and takes them into account, up
to the first that is refused. -/
def fill (source : ValueVector) (i : Nat) (buffer : ValueVector) (statistics : Statistics) :
    Selection → Attempt VectorError (ValueVector × Statistics) Unit
  | [] => (.ok (), buffer, statistics)
  | row :: rest =>
    match buffer.copySlot i source row with
    | (.error e, buffer) => (.error e, buffer, statistics)
    | (.ok (), buffer) =>
      match buffer.get? i with
      | none => (.error .outOfRange, buffer, statistics)
      | some x => fill source (i + 1) buffer (statistics.add x) rest

/-- Adds as many of the given rows of a vector as there is room for, and says how many. -/
def append (s : Segment) (source : ValueVector) (rows : Selection) :
    Attempt StorageError Segment Nat :=
  match s.data with
  | .buffer buffer =>
    let rows := rows.take (s.capacity - s.count)
    match fill source s.count buffer s.statistics rows with
    | (.ok (), buffer, statistics) =>
      (.ok rows.length,
        { s with count := s.count + rows.length, statistics, data := .buffer buffer })
    | (.error e, buffer, statistics) =>
      (.error (.vector e), { s with statistics, data := .buffer buffer })
  | _ => (.ok 0, s)

/-- A segment of given values that is full. -/
def ofValues (t : ColumnType) (start : Nat) (values : List Scalar) :
    Except StorageError Segment := do
  let v ← (ValueVector.ofValues t values).mapError .vector
  let (r, s) := (← new t start v.capacity).append v (List.range v.capacity)
  r.map fun _ => s

/-- Encodes a segment in memory; from then on it takes no more rows. -/
def toSealed (s : Segment) (preferred : Scheme) : Except StorageError Segment :=
  match s.data with
  | .buffer buffer => do
    let image ← SegmentImage.encode buffer s.count preferred
    pure { s with capacity := s.count, data := .sealed image (buffer.resize s.count) }
  | _ => .ok s

/-- The bytes of a segment without its updates. -/
def encoded (s : Segment) (source : Source) (preferred : Scheme) : Except StorageError Bytes :=
  match s.data with
  | .buffer buffer => SegmentImage.encode buffer s.count preferred
  | .sealed image _ => .ok image
  | .stored values => source.bytes values

/-- The values of a segment without its updates. -/
def base (s : Segment) (source : Source) : Reading ValueVector :=
  match s.data with
  | .buffer values | .sealed _ values => pure values
  | .stored values => Reading.load source values

/-- Writes the updates of the given rows that a snapshot sees into slots that start with row
`start`. -/
def overlayRows (o : Overlay) (snapshot : Snapshot) (start slot : Nat) (out : ValueVector) :
    List Nat → Except VectorError ValueVector
  | [] => .ok out
  | row :: rest =>
    match o.resolve? row snapshot with
    | none => overlayRows o snapshot start slot out rest
    | some x =>
      match out.set (slot + row - start) x with
      | (.ok (), out) => overlayRows o snapshot start slot out rest
      | (.error e, _) => .error e

/-- Copies the rows from `start` up to `stop`, counted from the first of the segment, as a snapshot
sees them into the slots of a vector from `slot` on. -/
def scan (s : Segment) (source : Source) (start stop : Nat) (snapshot : Snapshot)
    (out : ValueVector) (slot : Nat) : Reading ValueVector := do
  if s.count < stop then
    Reading.fail (.corruption "column segment" (.scanRange start stop s.count))
  let base ← s.base source
  match out.copyRows slot base (List.range' start (stop - start)) with
  | (.error e, _) => Reading.fail (.vector e)
  | (.ok (), out) =>
    match s.overlay.rows? start stop with
    | none => Reading.fail (.vector .outOfRange)
    | some rows =>
      Reading.of ((overlayRows s.overlay snapshot start slot out rows).mapError .vector)

/-- The rows from `start` up to `stop` as a snapshot sees them, in a fresh vector, behind `slot`
slots that are left blank. -/
def scanFresh (s : Segment) (source : Source) (start stop : Nat) (snapshot : Snapshot)
    (slot : Nat) : Reading ValueVector := do
  let size := stop - start + slot
  if !ValueVector.canBeNew s.type size then Reading.fail (.vector .outOfRange)
  else if s.count < stop then
    Reading.fail (.corruption "column segment" (.scanRange start stop s.count))
  else s.scan source start stop snapshot (.new s.type size) slot

/-- The value of a row, counted from the first of the segment, as a snapshot sees it. -/
def fetch (s : Segment) (source : Source) (row : Nat) (snapshot : Snapshot) : Reading Scalar :=
  match s.overlay.resolve? row snapshot with
  | some x => pure x
  | none => do
    let base ← s.base source
    match base.get? row with
    | some x => pure x
    | none => Reading.fail (.vector .outOfRange)

/-- Writes a value over a row. -/
def update (s : Segment) (row : Nat) (v : Version) : Segment :=
  { s with statistics := s.statistics.update v.value, overlay := s.overlay.push row v }

/-- Gives the updates of a row by a transaction the time of its commit. -/
def commitUpdate (s : Segment) (row : Nat) (transaction time : Stamp) : Segment :=
  { s with overlay := s.overlay.commit row transaction time }

/-- Takes back the newest update of a row by a transaction. -/
def revertUpdate (s : Segment) (row : Nat) (transaction : Stamp) : Option Scalar × Segment :=
  let (x, overlay) := s.overlay.remove row transaction
  (x, { s with overlay })

/-- The stamp of the newest update of a row. -/
def latestUpdate? (s : Segment) (row : Nat) : Option Stamp := s.overlay.latest? row

end Segment
end ColumnStore
