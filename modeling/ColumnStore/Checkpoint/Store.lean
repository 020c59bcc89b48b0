/-
# Checkpoints

A checkpoint is a block file with the encoded segments of all tables and, behind them, its metadata.
It is written under a name of its own and then installed: the manifest that names it takes the place
of the one before in a single step.  A checkpoint that the manifest does not name is stale.
-/

import ColumnStore.Attempt
import ColumnStore.Checkpoint.Manifest
import ColumnStore.Checkpoint.Metadata
import ColumnStore.Table.Basic
import ColumnStore.Text.Integer

namespace ColumnStore

/-- What is read from a checkpoint. -/
structure LoadedCheckpoint where
  iteration : Nat
  lastCommit : Stamp
  tables : List Table
  deriving Repr

/-- A checkpoint that is written and not installed: its manifest, and for every table its columns in
the new file. -/
structure WrittenCheckpoint where
  manifest : Manifest
  columns : List (List Column)
  deriving Repr

namespace Checkpoint

def namePrefix : String := "checkpoint-"

def nameSuffix : String := ".db"

/-- The name of the file of a checkpoint: its number has at least eight digits. -/
def fileName (iteration : Nat) : String :=
  let digits := toString iteration
  namePrefix ++ String.ofList (List.replicate (8 - digits.length) '0') ++ digits ++ nameSuffix

/-- What is left of a text without a beginning and an end. -/
def between? (front back : String) (s : String) : Option String :=
  if s.startsWith front && ((s.drop front.length).toString).endsWith back then
    some ((s.drop front.length).toString.dropEnd back.length).toString
  else none

/-- The number of the checkpoint in a file, if it is named as one. -/
def iterationOf? (name : String) : Option Nat := do
  Text.natBelow? UInt64.size (← between? namePrefix nameSuffix name)

/-! ## Reading -/

/-- The column with a number of the table with a number; it has as many rows as the table. -/
def loadColumn (r : TableRecord) (blocks : BlockFile) (policy : SegmentPolicy) (table column : Nat)
    (d : ColumnDefinition) (records : List SegmentRecord) : Except StorageError Column := do
  let c ← SegmentRecord.toColumn blocks policy d.type [table, column] records
  if c.rows ≠ r.rows then
    throw (.corruption ("checkpoint table " ++ r.name) (.storedRows d.name c.rows r.rows))
  pure c

/-- The table with a number in a checkpoint. -/
def loadTable (blocks : BlockFile) (policy : SegmentPolicy) (number : Nat) (r : TableRecord) :
    Except StorageError Table := do
  if r.segments.length ≠ r.definitions.length then
    throw (.corruption ("checkpoint table " ++ r.name)
      (.segmentLists r.segments.length r.definitions.length))
  let columns ← (r.definitions.zip r.segments).zipIdx.mapM fun ((d, records), i) =>
    loadColumn r blocks policy number i d records
  Table.ofColumns r.name r.definitions policy columns

/-- The manifest on a disk, if there is one. -/
def currentManifest (d : Disk) : Except StorageError (Option Manifest) := do
  if d.contains Manifest.path then
    match Manifest.parse? (← (d.read Manifest.path).mapError .io) with
    | some m => pure (some m)
    | none => throw .manifest
  else pure none

/-- Reads the checkpoint that a manifest names. -/
def loadNamed (d : Disk) (policy : SegmentPolicy) (m : Manifest) :
    Except StorageError LoadedCheckpoint := do
  let blocks ← BlockFile.openFile d m.file
  let b ← blocks.read d m.metadata
  match Coder.metadata.decode b with
  | none => throw .metadata
  | some (metadata, _) =>
    if metadata.iteration ≠ m.iteration then
      throw (.corruption m.file (.iteration metadata.iteration m.iteration))
    let tables ← metadata.tables.zipIdx.mapM fun (r, i) => loadTable blocks policy i r
    pure { iteration := metadata.iteration, lastCommit := metadata.lastCommit, tables }

/-- Reads the checkpoint that is installed, if there is one. -/
def load (d : Disk) (policy : SegmentPolicy) : Except StorageError (Option LoadedCheckpoint) := do
  match ← currentManifest d with
  | none => pure none
  | some m => return some (← loadNamed d policy m)

/-! ## Writing -/

/-- A block file that is being written, and the disk. -/
abbrev Writing := BlockFile × Disk

/-- Writes a payload. -/
def writePayload (s : Writing) (payload : Bytes) : Attempt StorageError Writing BlockPointer :=
  Attempt.ofExcept s (s.1.write s.2 payload)

/-- Writes things one after the other. -/
def writeEach {α β : Type} (write : Writing → α → Attempt StorageError Writing β) (s : Writing) :
    List α → Attempt StorageError Writing (List β)
  | [] => (.ok [], s)
  | a :: rest =>
    (write s a).andThen fun b s =>
      let (bs, s) := writeEach write s rest
      (bs.map (b :: ·), s)

/-- Writes a segment without its updates. -/
def writeSegment (preferred : Scheme) (s : Writing) (g : Segment) :
    Attempt StorageError Writing SegmentRecord :=
  match g.encoded (.ofDisk s.2 []) preferred with
  | .error e => (.error e, s)
  | .ok image =>
    (writePayload s image).andThen fun pointer s =>
      (.ok { start := g.start, count := g.count, statistics := g.statistics, pointer }, s)

/-- Writes the columns of a table. -/
def writeTable (preferred : Scheme) (s : Writing) (t : Table × List Column) :
    Attempt StorageError Writing TableRecord :=
  let column (s : Writing) (c : Column) := writeEach (writeSegment preferred) s c.segments
  (writeEach column s t.2).andThen fun segments s =>
    let rows := (t.2.head?.map (·.rows)).getD 0
    (.ok { name := t.1.name, definitions := t.1.definitions, rows, segments }, s)

/-- The columns of the table with a number that was written. -/
def storedColumns (blocks : BlockFile) (policy : SegmentPolicy) (number : Nat)
    (columns : List Column) (r : TableRecord) : Except StorageError (List Column) :=
  (columns.zip r.segments).zipIdx.mapM fun ((c, records), i) =>
    SegmentRecord.toColumn blocks policy c.type [number, i] records

/-- Writes tables with the given columns, and the metadata behind them, to an empty block file. -/
def writeContents (s : Writing) (policy : SegmentPolicy) (iteration : Nat) (lastCommit : Stamp)
    (tables : List (Table × List Column)) : Attempt StorageError Writing WrittenCheckpoint :=
  (writeEach (writeTable policy.compression) s tables).andThen fun records s =>
    let metadata := Coder.metadata.encode { iteration, lastCommit, tables := records }
    (writePayload s metadata).andThen fun pointer s =>
      let manifest := { iteration, file := s.1.path, metadata := pointer }
      let columns := (tables.zip records).zipIdx.mapM fun ((t, r), i) =>
        storedColumns s.1 policy i t.2 r
      (columns.map fun columns => { manifest, columns }, s)

/-- Takes away what has the name of the file of a checkpoint. -/
def clear (d : Disk) (iteration : Nat) : Except FileError Disk :=
  if d.contains (fileName iteration) then d.delete (fileName iteration) else .ok d

/-- Writes a checkpoint of tables with the given columns to its file. -/
def write (d : Disk) (blockSize : Nat) (policy : SegmentPolicy) (iteration : Nat)
    (lastCommit : Stamp) (tables : List (Table × List Column)) :
    Attempt StorageError Disk WrittenCheckpoint :=
  match clear d iteration with
  | .error e => (.error (.io e), d)
  | .ok d =>
    match BlockFile.create d (fileName iteration) blockSize with
    | .error e => (.error e, d)
    | .ok s =>
      let (r, s) := writeContents s policy iteration lastCommit tables
      (r, s.2)

/-- Installs a checkpoint: its manifest is written under another name and then takes its place. -/
def install (d : Disk) (m : Manifest) : Attempt StorageError Disk Unit :=
  match d.create Manifest.draftPath with
  | .error e => (.error (.io e), d)
  | .ok (file, d) =>
    let d := d.write file (Bytes.ofString m.render)
    match d.rename Manifest.draftPath Manifest.path with
    | .error e => (.error (.io e), d)
    | .ok d => (.ok (), d)

/-- The paths of the files of checkpoints other than the one with a number. -/
def stale (d : Disk) (keep : Nat) : List String :=
  d.list.filter fun name =>
    !d.isDirectory [name] && (iterationOf? name).any (· ≠ keep)

/-- Deletes the checkpoints other than the one with a number, and says how many. -/
def removeStale (d : Disk) (keep : Nat) : Nat × Disk :=
  ((stale d keep).length, (stale d keep).foldl (fun d name => (d.delete name).toOption.getD d) d)

/-- Numbers are padded to eight digits and read without regard to them. -/
example : fileName 12 = "checkpoint-00000012.db" ∧ iterationOf? "checkpoint-00000012.db" = some 12 ∧
    iterationOf? "checkpoint-12.db" = some 12 ∧ iterationOf? "checkpoint-x.db" = none := by
  decide +kernel

end Checkpoint
end ColumnStore
