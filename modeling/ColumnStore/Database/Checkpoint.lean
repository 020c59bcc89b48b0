/-
# Checkpoints of a database

A checkpoint is taken while no transaction is active, in five steps, each of which leaves files that
can be opened: the rows are written to a file of their own, a marker is added to the log, the file
is installed, the log is emptied, and the files of other checkpoints are deleted.
-/

import ColumnStore.Checkpoint.Store
import ColumnStore.Database.Commit

namespace ColumnStore
namespace Database

/-- Fresh columns of what a snapshot sees of tables. -/
def materializeTables (s : Snapshot) (vectorSize : Nat) (source : Source) :
    List Table → Reading (List (Table × List Column))
  | [] => pure []
  | t :: rest => do
    let columns ← t.materialize source s vectorSize
    let more ← materializeTables s vectorSize source rest
    pure ((t, columns) :: more)

/-- Fresh columns of what a snapshot sees of all tables, in the order of their names. -/
def materialize (db : Database) (s : Snapshot) (vectorSize : Nat) :
    Attempt StorageError Database (List (Table × List Column)) :=
  db.read fun source =>
    materializeTables s vectorSize source (db.catalog.ids.map db.catalog.table)

/-- Writes what a snapshot sees of all tables as a checkpoint that is not installed. -/
def writeCheckpoint (db : Database) (iteration : Nat) (lastCommit : Stamp) (s : Snapshot)
    (vectorSize : Nat) : Attempt StorageError Database WrittenCheckpoint :=
  (db.materialize s vectorSize).andThen fun tables db =>
    let (r, disk) := Checkpoint.write db.disk db.blockSize db.policy iteration lastCommit tables
    (r, { db with disk })

/-- Installs a checkpoint that is written. -/
def installCheckpoint (db : Database) (m : Manifest) : Attempt StorageError Database Unit :=
  let (r, disk) := Checkpoint.install db.disk m
  (r, { db with disk })

/-- Puts columns in place of those of tables. -/
def adoptColumns (db : Database) : List (TableId × List Column) → Attempt StorageError Database Unit
  | [] => (.ok (), db)
  | (id, columns) :: rest =>
    match (db.catalog.table id).replaceColumns columns with
    | .error e => (.error e, db)
    | .ok t => adoptColumns { db with catalog := db.catalog.setTable id t } rest

/-- Drops all entries of the log. -/
def emptyLog (db : Database) : Database :=
  let (log, disk) := db.log.truncate db.disk
  { db with log, disk }

/-- Deletes the files of other checkpoints than the one with a number. -/
def removeStale (db : Database) (iteration : Nat) : Database :=
  { db with disk := (Checkpoint.removeStale db.disk iteration).2 }

/-- Makes a written checkpoint the one that the database stands on. -/
def adoptCheckpoint (db : Database) (ids : List TableId) (w : WrittenCheckpoint) :
    Attempt TransactionError Database Nat :=
  match db.log.append db.disk [.checkpoint w.manifest.iteration] with
  | .error e => (.error (.log e), db)
  | .ok (log, disk) =>
    let installed := ({ db with log, disk }.installCheckpoint w.manifest).andThen fun _ db =>
      db.adoptColumns (ids.zip w.columns)
    (installed.mapError .storage).andThen fun _ db =>
      let db := { db with iteration := w.manifest.iteration }.emptyLog
      (.ok w.manifest.iteration, db.removeStale w.manifest.iteration)

/-- Takes a checkpoint and gives its number. -/
def checkpoint (db : Database) : Attempt TransactionError Database Nat :=
  if !db.active.isEmpty then (.error (.checkpointConflict db.active.length), db)
  else if UInt64.size ≤ db.iteration + 1 then (.error (.vector .outOfRange), db)
  else
    let written :=
      db.writeCheckpoint (db.iteration + 1) db.lastCommit Snapshot.committed db.vectorSize
    (written.mapError .storage).andThen fun w db => db.adoptCheckpoint db.catalog.ids w

/-- Whether the log is so long that a checkpoint is due. -/
def checkpointDue (db : Database) : Bool :=
  0 < db.threshold && db.threshold < db.log.length && db.active.isEmpty

/-- Takes a checkpoint if one is due.  That it is refused does not matter. -/
def checkpointWhenDue (db : Database) : Attempt TransactionError Database Unit :=
  if db.checkpointDue then
    match db.checkpoint with
    | (.ok _, db) => (.ok (), db)
    | (.error e, db) => (if e.isOutOfRange then .error e else .ok (), db)
  else (.ok (), db)

/-- Commits a transaction, and takes a checkpoint when one is due. -/
def commit (s : Session) : Attempt TransactionError Session Stamp :=
  s.commit.andThen fun time s =>
    let (r, database) := s.database.checkpointWhenDue
    (r.map fun _ => time, { s with database })

end Database
end ColumnStore
