/-
# Metadata of a checkpoint

What a checkpoint says about itself: its number, the last commit in it, and for every segment of
every column of every table where its values lie.
-/

import ColumnStore.Coding.Value
import ColumnStore.Disk.Blocks
import ColumnStore.Segment.Column

namespace ColumnStore

/-- A segment in a checkpoint. -/
structure SegmentRecord where
  start : Nat
  count : Nat
  statistics : Statistics
  pointer : BlockPointer
  deriving Repr, BEq

/-- A table in a checkpoint, with a list of segments for each column. -/
structure TableRecord where
  name : String
  definitions : List ColumnDefinition
  rows : Nat
  segments : List (List SegmentRecord)
  deriving Repr, BEq

/-- What a checkpoint says about itself. -/
structure CheckpointMetadata where
  iteration : Nat
  lastCommit : Stamp
  tables : List TableRecord
  deriving Repr, BEq

namespace Coder

/-- Block pointers. -/
def pointer : Coder BlockPointer :=
  (pair word (pair (nat 4) word)).map (fun (block, count, length) => ⟨block, count, length⟩)
    fun p => (p.block, p.count, p.length)

/-- Segments of a checkpoint. -/
def segmentRecord : Coder SegmentRecord :=
  (pair word (pair word (pair statistics pointer))).map
    (fun (start, count, statistics, pointer) => ⟨start, count, statistics, pointer⟩)
    fun s => (s.start, s.count, s.statistics, s.pointer)

/-- Tables of a checkpoint. -/
def tableRecord : Coder TableRecord :=
  (pair text (pair (list definition) (pair word (list (list segmentRecord))))).map
    (fun (name, definitions, rows, segments) => ⟨name, definitions, rows, segments⟩)
    fun t => (t.name, t.definitions, t.rows, t.segments)

/-- Metadata of checkpoints. -/
def metadata : Coder CheckpointMetadata :=
  (pair word (pair word (list tableRecord))).map
    (fun (iteration, lastCommit, tables) => ⟨iteration, lastCommit, tables⟩)
    fun m => (m.iteration, m.lastCommit, m.tables)

end Coder

namespace SegmentRecord

/-- The segment of a column of a type in a block file. -/
def toSegment (r : SegmentRecord) (blocks : BlockFile) (t : ColumnType) (place : List Nat) :
    Segment :=
  .ofStored r.start r.statistics { blocks, pointer := r.pointer, type := t, rows := r.count, place }

/-- A column of segments in a block file; `place` has the numbers of its table and itself. -/
def toColumn (blocks : BlockFile) (policy : SegmentPolicy) (t : ColumnType) (place : List Nat)
    (records : List SegmentRecord) : Except StorageError Column :=
  Column.ofSegments t policy (records.mapIdx fun i r => r.toSegment blocks t (place ++ [i]))

end SegmentRecord
end ColumnStore
