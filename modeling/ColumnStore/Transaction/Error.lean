/-
# Refusals of transactions
-/

import ColumnStore.Log.Error

namespace ColumnStore

/-- Where a transaction stands: it is active until it commits or is rolled back. -/
inductive TransactionState where
  | active
  | committed
  | aborted
  deriving DecidableEq, Repr, Inhabited

def TransactionState.name : TransactionState → String
  | .active => "Active"
  | .committed => "Committed"
  | .aborted => "Aborted"

/-- What is wrong when a change cannot be taken back. -/
inductive UndoFault where
  | noDeletion (row : Nat) (table : String) (transaction : Nat)
  | noColumn (column : Nat) (table : String)
  | noVersion (row column : Nat) (table : String) (transaction : Nat)
  | otherValue (row column : Nat) (table : String) (found expected : String)
  | noLocalInsert (count start : Nat) (table : String)
  | beforeImages (rows images : Nat)
  | noLocalRow (offset : Nat) (table : String)
  deriving DecidableEq, Repr

def UndoFault.message : UndoFault → String
  | .noDeletion row table transaction =>
    "row " ++ toString row ++ " of " ++ table ++ " carries no deletion by transaction " ++
      toString transaction
  | .noColumn column table => "column " ++ toString column ++ " of " ++ table ++ " does not exist"
  | .noVersion row column table transaction =>
    "row " ++ toString row ++ " column " ++ toString column ++ " of " ++ table ++
      " has no version by transaction " ++ toString transaction
  | .otherValue row column table found expected =>
    "row " ++ toString row ++ " column " ++ toString column ++ " of " ++ table ++ " restored to " ++
      found ++ ", expected " ++ expected
  | .noLocalInsert count start table =>
    "insert of " ++ toString count ++ " rows at local offset " ++ toString start ++ " into " ++
      table ++ " has no local storage"
  | .beforeImages rows images =>
    "update of " ++ toString rows ++ " rows carries " ++ toString images ++ " before-images"
  | .noLocalRow offset table =>
    "update of local row " ++ toString offset ++ " in " ++ table ++ " has no local storage"

/-- Why a transaction or the database refuses an operation. -/
inductive TransactionError where
  | invalidState (transaction : Nat) (actual expected : TransactionState)
  | writeConflict (table : String) (row : Nat)
  | cancelled
  /-- The log could not be written. -/
  | logFlush (cause : FileError)
  | undo (fault : UndoFault)
  | checkpointConflict (active : Nat)
  | storage (cause : StorageError)
  | log (cause : LogError)
  | vector (cause : VectorError)
  deriving DecidableEq, Repr

namespace TransactionError

/-- Whether a position lay outside the data. -/
def isOutOfRange : TransactionError → Bool
  | .storage cause => cause.isOutOfRange
  | .log cause => cause.isOutOfRange
  | .vector cause => cause.isOutOfRange
  | _ => false

/-- The kind of a refusal in a word, with the kind of its cause behind a point. -/
def kind : TransactionError → String
  | .invalidState .. => "InvalidState"
  | .writeConflict .. => "WriteConflict"
  | .cancelled => "Cancelled"
  | .logFlush _ => "WalFlush.Io"
  | .undo _ => "UndoInconsistency"
  | .checkpointConflict _ => "CheckpointConflict"
  | .storage cause => "Storage." ++ cause.kind
  | .log cause => "Wal." ++ cause.kind
  | .vector cause => "Vector." ++ cause.kind

def message : TransactionError → String
  | .invalidState transaction actual expected =>
    "Transaction " ++ toString transaction ++ " is " ++ actual.name ++ ", expected " ++
      expected.name
  | .writeConflict table row => "Write conflict on table " ++ table ++ " row " ++ toString row
  | .cancelled => "Transaction was cancelled"
  | .logFlush cause => "WAL flush failed: " ++ cause.message
  | .undo fault => "Undo buffer inconsistency: " ++ fault.message
  | .checkpointConflict active =>
    "Cannot checkpoint while " ++ toString active ++ " other transaction(s) are active"
  | .storage cause => "Storage error: " ++ cause.message
  | .log cause => "WAL error: " ++ cause.message
  | .vector cause => "Vector error: " ++ cause.message

instance : Failure TransactionError := ⟨kind, message⟩

end TransactionError
end ColumnStore
