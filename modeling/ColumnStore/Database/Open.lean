/-
# Opening a database

A data directory is opened by reading the checkpoint that is installed and replaying the log on top
of it.  What a crash left at the end of the log is cut off: frames that are not whole, and entries
without their commit.
-/

import ColumnStore.Database.Checkpoint
import ColumnStore.Settings.Basic

namespace ColumnStore
namespace Database

/-- The directory of the log in the data directory. -/
def logDirectory : String := "wal"

/-- Adds tables to a catalog. -/
def insertTables (c : Catalog) : List Table → Except StorageError Catalog
  | [] => .ok c
  | t :: rest => do
    let (_, c) ← c.insert t
    insertTables c rest

/-- The tables of the checkpoint that is installed, with its number and its last commit. -/
def loadCheckpoint (d : Disk) (policy : SegmentPolicy) :
    Except StorageError (Catalog × Nat × Stamp) := do
  match ← Checkpoint.load d policy with
  | none => pure ({}, 0, 0)
  | some loaded =>
    let catalog ← insertTables {} loaded.tables
    pure (catalog, loaded.iteration, loaded.lastCommit)

/-- Opens the log and cuts off entries without their commit. -/
def openLog (d : Disk) (bufferSize : Nat) (replayed : ReplaySummary) :
    Attempt LogError Disk LogWriter :=
  (LogWriter.openIn d logDirectory bufferSize).andThen fun log d =>
    if replayed.discarded = 0 then (.ok log, d)
    else
      let (log, d) := log.truncateTo d replayed.committedLength
      (.ok log, d)

/-- The tables of a data directory: those of the checkpoint, with everything committed since. -/
def recover (d : Disk) (policy : SegmentPolicy) :
    Except TransactionError (Catalog × Nat × Stamp × ReplaySummary) := do
  let (catalog, iteration, lastCommit) ← (loadCheckpoint d policy).mapError .storage
  match Replay.ofFile d (Log.path logDirectory) policy iteration catalog with
  | (.error e, _) => throw (.log e)
  | (.ok replayed, catalog) =>
    pure (catalog, iteration, max lastCommit replayed.lastCommit, replayed)

/-- Opens the database in a data directory. -/
def openDirectory (d : Disk) (settings : Settings) : Attempt TransactionError Disk Database :=
  match do
    let policy ← settings.segmentPolicy.mapError TransactionError.storage
    pure (policy, ← recover d policy) with
  | .error e => (.error e, d)
  | .ok (policy, catalog, iteration, lastCommit, replayed) =>
    ((openLog d settings.log.bufferSize replayed).mapError .log).andThen fun log d =>
      (.ok {
        disk := d
        catalog, log, lastCommit, iteration, policy
        blockSize := settings.storage.blockSize
        vectorSize := max settings.scan.vectorSize 1
        threshold := settings.log.checkpointThreshold }, d)

end Database
end ColumnStore
