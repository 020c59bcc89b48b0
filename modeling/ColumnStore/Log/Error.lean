/-
# Refusals of the log
-/

import ColumnStore.Log.Entry
import ColumnStore.Storage.Error

namespace ColumnStore

/-- What is wrong with the bytes of a log. -/
inductive LogFault where
  | header (cause : HeaderFault)
  | unknownKind (tag : Nat)
  | checksum
  | undecodable
  | kindMismatch (tag : Nat) (found : LogKind)
  deriving DecidableEq, Repr

def LogFault.message : LogFault → String
  | .header cause => cause.message
  | .unknownKind tag => "unknown entry kind " ++ toString tag
  | .checksum => "checksum mismatch"
  | .undecodable => "undecodable payload"
  | .kindMismatch tag found =>
    "frame kind " ++ toString tag ++ " does not match payload " ++ found.name

/-- Why the log refuses an operation. -/
inductive LogError where
  | io (cause : FileError)
  | corruption (offset : Nat) (fault : LogFault)
  | entryTooLarge (length : Nat)
  /-- An entry that cannot be applied to the tables. -/
  | replay (cause : StorageError)
  /-- More room was asked for than there can be. -/
  | outOfRange
  deriving DecidableEq, Repr

/-- Whether a position lay outside the data. -/
def LogError.isOutOfRange : LogError → Bool
  | .outOfRange => true
  | .replay cause => cause.isOutOfRange
  | _ => false

/-- The kind of a refusal in a word, with the kind of its cause behind a point. -/
def LogError.kind : LogError → String
  | .io _ => "Io"
  | .corruption .. => "Corruption"
  | .entryTooLarge _ => "EntryTooLarge"
  | .replay cause => "Replay." ++ cause.kind
  | .outOfRange => "Position"

def LogError.message : LogError → String
  | .io cause => "IO error: " ++ cause.message
  | .corruption offset fault =>
    "WAL corruption at offset " ++ toString offset ++ ": " ++ fault.message
  | .entryTooLarge length => "WAL entry of " ++ toString length ++ " bytes exceeds the frame limit"
  | .replay cause => "WAL replay failed: " ++ cause.message
  | .outOfRange => "Position out of range"

instance : Failure LogError := ⟨LogError.kind, LogError.message⟩

end ColumnStore
