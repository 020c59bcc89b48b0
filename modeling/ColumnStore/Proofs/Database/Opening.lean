/-
# Opening a directory

An empty directory opens as a database without tables, whose log has a header and no entries
(`openDirectory_empty`).
-/

import ColumnStore.Proofs.Database.Following

namespace ColumnStore

deriving instance DecidableEq for Disk

/-- The header of a new log. -/
def LogWriter.header : Bytes := (FileHeader.ofKind .log 0).encode

/-- A directory with nothing but the directory of the log. -/
def Disk.withDirectory : Disk where
  entries := [(["wal"], .directory)]

/-- A directory with a log that has no entries. -/
def Disk.fresh : Disk where
  entries := [(["wal", "strata.wal"], .file 0), (["wal"], .directory)]
  contents := #[LogWriter.header]

namespace Disk

theorem makeDirectory_empty :
    ({} : Disk).makeDirectoryAt Database.logDirectory = (.ok (), withDirectory) := by
  have h₁ : (({} : Disk).makeDirectoryAt Database.logDirectory).1.toOption = some () := by
    decide +kernel
  have h₂ : (({} : Disk).makeDirectoryAt Database.logDirectory).2 = withDirectory := by
    decide +kernel
  exact Prod.ext (eq_ok_of_toOption h₁) h₂

theorem create_log : withDirectory.create (Log.path Database.logDirectory) =
    .ok (0, { fresh with contents := #[[]] }) := eq_ok_of_toOption (by decide +kernel)

theorem find_log : fresh.find (Log.path Database.logDirectory) = .ok 0 :=
  eq_ok_of_toOption (by decide +kernel)

end Disk

namespace Database

/-- The log in a directory that was empty. -/
def freshLog (bufferSize : Nat) : LogWriter where
  path := Log.path logDirectory
  file := 0
  length := FileHeader.length
  bufferSize := bufferSize

/-- The database in a directory that was empty. -/
def fresh (settings : Settings) (policy : SegmentPolicy) : Database where
  disk := .fresh
  log := freshLog settings.log.bufferSize
  lastCommit := 0
  iteration := 0
  policy := policy
  blockSize := settings.storage.blockSize
  vectorSize := max settings.scan.vectorSize 1
  threshold := settings.log.checkpointThreshold

theorem openLog_empty (bufferSize : Nat) {replayed : ReplaySummary} (h : replayed.discarded = 0) :
    openLog {} bufferSize replayed = (.ok (freshLog bufferSize), .fresh) := by
  have hread : Log.read .withDirectory (Log.path logDirectory) = .ok {} := by
    rw [Log.read, if_pos (by decide +kernel)]
  have hfile : LogWriter.openFile .withDirectory (Log.path logDirectory) bufferSize {} =
      .ok (freshLog bufferSize, .fresh) := by
    unfold LogWriter.openFile
    rw [if_pos (by decide), Disk.create_log]
    rfl
  have hopen : LogWriter.openIn {} logDirectory bufferSize = (.ok (freshLog bufferSize), .fresh) := by
    rw [LogWriter.openIn, Disk.makeDirectory_empty]
    change Attempt.ofExcept Disk.withDirectory (do
      let contents ← Log.read .withDirectory (Log.path logDirectory)
      (LogWriter.openFile _ _ bufferSize contents).mapError .io) = _
    rw [hread, ok_bind, hfile]
    rfl
  rw [openLog, hopen, Attempt.andThen_ok, if_pos h]

/-- **An empty directory is opened.** -/
theorem openDirectory_empty {settings : Settings} {policy : SegmentPolicy}
    (h : settings.segmentPolicy = .ok policy) :
    openDirectory {} settings = (.ok (fresh settings policy), .fresh) := by
  have hload : loadCheckpoint {} policy = .ok ({}, 0, 0) := by
    have hnone : Checkpoint.currentManifest {} = .ok none := by
      rw [Checkpoint.currentManifest, if_neg (by decide +kernel)]
      rfl
    rw [loadCheckpoint, Checkpoint.load, hnone]
    rfl
  have hreplay : Replay.ofFile {} (Log.path logDirectory) policy 0 {} = (.ok {}, {}) := by
    rw [Replay.ofFile, Log.read, if_pos (by decide +kernel)]
    rfl
  have hrecover : recover {} policy = .ok ({}, 0, 0, {}) := by
    rw [recover, hload]
    simp only [Except.mapError, ok_bind, hreplay]
    rfl
  rw [openDirectory, h]
  simp only [Except.mapError, ok_bind, hrecover]
  rw [show (pure (policy, ({} : Catalog), 0, 0, ({} : ReplaySummary)) :
    Except TransactionError _) = .ok _ from rfl]
  simp only [openLog_empty _ (show ({} : ReplaySummary).discarded = 0 from rfl)]
  rfl

theorem of_openDirectory_empty {settings : Settings} {db : Database} {d : Disk}
    (h : openDirectory {} settings = (.ok db, d)) :
    ∃ policy, settings.segmentPolicy = .ok policy ∧ db = fresh settings policy := by
  cases hp : settings.segmentPolicy with
  | error e =>
    rw [openDirectory, hp] at h
    cases h
  | ok policy =>
    rw [openDirectory_empty hp] at h
    exact ⟨policy, rfl, (Except.ok.inj (Prod.mk.inj h).1).symm⟩

end Database
end ColumnStore
