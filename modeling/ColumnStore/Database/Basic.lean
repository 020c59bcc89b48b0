/-
# Databases

A database is the tables of a data directory, the log of what was committed since the checkpoint,
and the transactions that have not ended.  Commits are numbered; a transaction begins with the
number of the last one.
-/

import ColumnStore.Log.Replay
import ColumnStore.Table.Scan
import ColumnStore.Transaction.Basic

namespace ColumnStore

/-- An open database. -/
structure Database where
  disk : Disk
  /-- Segments of the checkpoint that were read. -/
  decoded : Decoded := []
  catalog : Catalog := {}
  log : LogWriter
  lastCommit : Stamp
  nextTransaction : Stamp := firstTransaction
  /-- The transactions that have not ended. -/
  active : List Stamp := []
  /-- The number of the checkpoint that is installed. -/
  iteration : Nat
  policy : SegmentPolicy
  blockSize : Nat
  /-- The most rows of a chunk of a scan. -/
  vectorSize : Nat
  /-- The length of the log past which a commit starts a checkpoint, or 0. -/
  threshold : Nat
  deriving Repr

namespace Database

/-- Where the values of stored segments are read. -/
def source (db : Database) : Source := .ofDisk db.disk db.decoded

/-- Keeps what was read. -/
def remember (db : Database) (decoded : Decoded) : Database :=
  { db with decoded := decoded ++ db.decoded }

/-- Reads from the stored segments. -/
def read {α : Type} (db : Database) (r : Source → Reading α) : Attempt StorageError Database α :=
  let x := r db.source
  (x.result, db.remember x.decoded)

/-- Changes a table. -/
def change {ε α : Type} (db : Database) (id : TableId) (f : Table → Attempt ε Table α) :
    Attempt ε Database α :=
  let (r, catalog) := db.catalog.change id f
  (r, { db with catalog })

/-- Changes a table in a way that reads stored segments. -/
def changeReading {α : Type} (db : Database) (id : TableId)
    (f : Source → Table → Reading (Attempt TransactionError Table α)) :
    Attempt TransactionError Database α :=
  match db.read fun source => f source (db.catalog.table id) with
  | (.error e, db) => (.error (.storage e), db)
  | (.ok r, db) => db.change id fun _ => r

/-- Begins a transaction. -/
def newTransaction (db : Database) : Transaction × Database :=
  ({ id := db.nextTransaction, start := db.lastCommit },
    { db with
      nextTransaction := db.nextTransaction + 1
      active := db.nextTransaction :: db.active })

/-- Takes a transaction that has ended off the list. -/
def unregister (db : Database) (id : Stamp) : Database :=
  { db with active := db.active.filter (· ≠ id) }

/-- The time of the next commit, a 64-bit word. -/
def nextCommit (db : Database) : Except TransactionError Stamp :=
  if db.lastCommit + 1 < UInt64.size then .ok (db.lastCommit + 1) else .error (.vector .outOfRange)

/-- Makes a commit the last one. -/
def publish (db : Database) (time : Stamp) : Database := { db with lastCommit := time }

/-- Adds entries to the log. -/
def appendLog (db : Database) (entries : List LogEntry) : Except TransactionError Database :=
  match db.log.append db.disk entries with
  | .ok (log, disk) => .ok { db with log, disk }
  | .error (.io cause) => .error (.logFlush cause)
  | .error e => .error (.log e)

/-- Logs changes of the schema with a commit of their own. -/
def logCommitted (db : Database) (entries : List LogEntry) : Except TransactionError Database := do
  let time ← db.nextCommit
  let db ← db.appendLog (entries ++ [.commit time])
  pure (db.publish time)

/-- Creates a table; this commits at once. -/
def createTable (db : Database) (name : String) (definitions : List ColumnDefinition) :
    Except TransactionError (TableId × Database) := do
  if db.catalog.contains name then throw (.storage (.tableExists name))
  let t ← (Table.new name definitions db.policy).mapError .storage
  let db ← db.logCommitted [.createTable name definitions]
  let (id, catalog) ← (db.catalog.insert t).mapError .storage
  pure (id, { db with catalog })

/-- Drops a table; this commits at once. -/
def dropTable (db : Database) (name : String) : Except TransactionError Database := do
  let _ ← (db.catalog.get name).mapError .storage
  let db ← db.logCommitted [.dropTable name]
  let (_, catalog) ← (db.catalog.remove name).mapError .storage
  pure { db with catalog }

/-- A scan of a table as a transaction sees it. -/
def scanTable (db : Database) (x : Transaction) (id : TableId) (columns : List Nat)
    (filters : List Filter) (vectorSize : Nat) :
    Attempt TransactionError Database (List ScanChunk) :=
  match do
    x.checkReadable
    (Scan.new (db.catalog.table id) x.snapshot columns filters (x.locals.get? id) x.cancel
      vectorSize).mapError TransactionError.storage with
  | .error e => (.error e, db)
  | .ok scan =>
    match db.read scan.run with
    | (.error e, db) => (.error (.storage e), db)
    | (.ok r, db) => (r, db)

/-- Reads columns of the rows of a table that a transaction sees and that pass filters, its own rows
among them. -/
def scan (db : Database) (x : Transaction) (name : String) (columns : List Nat)
    (filters : List Filter) : Attempt TransactionError Database (List ScanChunk) :=
  match do
    x.checkReadable
    (db.catalog.get name).mapError TransactionError.storage with
  | .error e => (.error e, db)
  | .ok id => db.scanTable x id columns filters db.vectorSize

/-- A line that describes a database. -/
def describe (db : Database) : String :=
  "Database \x7b dir: \"$DIR\", tables: [" ++
    ", ".intercalate (db.catalog.names.map fun t => Text.quote t.1) ++ "], iteration: " ++
    toString db.iteration ++ " \x7d"

end Database
end ColumnStore
