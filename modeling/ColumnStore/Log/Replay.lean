/-
# Replay

What was committed is rebuilt from the log, on top of the tables of a checkpoint.  Entries up to the
last marker that the checkpoint covers are skipped.  The entries behind it are applied group by
group; a group without a commit is dropped.
-/

import ColumnStore.Log.File
import ColumnStore.Table.Catalog

namespace ColumnStore

/-- What came of a replay. -/
structure ReplaySummary where
  commits : Nat := 0
  /-- Entries that the checkpoint contains. -/
  skipped : Nat := 0
  /-- Entries of a last group that was not committed. -/
  discarded : Nat := 0
  lastCommit : Nat := 0
  validLength : Nat := 0
  /-- The place behind the last commit that was applied, or behind the skipped entries. -/
  committedLength : Nat := 0
  torn : Bool := false
  deriving DecidableEq, Repr, Inhabited

namespace Replay

/-- Applies an entry to the tables, for a transaction that committed at `time`. -/
def apply (policy : SegmentPolicy) (time : Stamp) (c : Catalog) :
    LogEntry → Attempt StorageError Catalog Unit
  | .createTable name columns => Attempt.ofExcept c do
    let t ← Table.new name columns policy
    let (_, c) ← c.insert t
    pure ((), c)
  | .dropTable name => Attempt.ofExcept c do
    let (_, c) ← c.remove name
    pure ((), c)
  | .insert table rows => onTable table fun t =>
    let (r, t) := t.appendRows rows time
    (r.map fun _ => (), t)
  | .delete table rows => onTable table fun t => t.deleteCommitted rows time
  | .update table column rows values =>
    onTable table fun t => t.updateCommitted column rows values time
  | .checkpoint _ | .commit _ => (.ok (), c)
where
  onTable (name : String) (f : Table → Attempt StorageError Table Unit) :
      Attempt StorageError Catalog Unit :=
    match c.get name with
    | .error e => (.error e, c)
    | .ok id => c.change id f

/-- Applies entries in order, up to the first that is refused. -/
def applyGroup (policy : SegmentPolicy) (time : Stamp) (c : Catalog) :
    List LogEntry → Attempt StorageError Catalog Unit
  | [] => (.ok (), c)
  | e :: rest => (apply policy time c e).andThen fun _ c => applyGroup policy time c rest

/-- Whether the checkpoint with a number contains everything in front of an entry. -/
def isCovered (iteration : Nat) : LogEntry → Bool
  | .checkpoint n => n ≤ iteration
  | _ => false

/-- The number of entries up to the last marker that a checkpoint covers. -/
def covered (iteration : Nat) (entries : List (LogEntry × Nat)) : Nat :=
  entries.length - (entries.reverse.takeWhile fun e => !isCovered iteration e.1).length

/-- Applies the groups of some entries; `pending` are the entries read since the last commit, the
newest first. -/
def applyGroups (policy : SegmentPolicy) (pending : List LogEntry)
    (s : ReplaySummary) (c : Catalog) :
    List (LogEntry × Nat) → Attempt LogError Catalog ReplaySummary
  | [] => (.ok { s with discarded := pending.length }, c)
  | (.commit time, stop) :: rest =>
    match applyGroup policy time c pending.reverse with
    | (.error e, c) => (.error (.replay e), c)
    | (.ok (), c) =>
      let s := { s with
        commits := s.commits + 1
        lastCommit := max s.lastCommit time
        committedLength := stop }
      applyGroups policy [] s c rest
  | (.checkpoint _, _) :: rest => applyGroups policy pending s c rest
  | (e, _) :: rest => applyGroups policy (e :: pending) s c rest

/-- Applies what was read from a log on top of the checkpoint with a number. -/
def ofContents (policy : SegmentPolicy) (iteration : Nat) (c : Catalog) (log : LogContents) :
    Attempt LogError Catalog ReplaySummary :=
  let skipped := covered iteration log.entries
  let start :=
    match (log.entries.take skipped).getLast? with
    | some (_, stop) => stop
    | none => FileHeader.length
  let s : ReplaySummary :=
    { skipped, validLength := log.validLength, committedLength := min start log.validLength,
      torn := log.torn }
  applyGroups policy [] s c (log.entries.drop skipped)

/-- Replays the log with a path on top of the checkpoint with a number. -/
def ofFile (d : Disk) (path : String) (policy : SegmentPolicy) (iteration : Nat) (c : Catalog) :
    Attempt LogError Catalog ReplaySummary :=
  match Log.read d path with
  | .error e => (.error e, c)
  | .ok log => ofContents policy iteration c log

end Replay
end ColumnStore
