/-
# Log entries

What a transaction did, as it is written to the log when the transaction commits: entries for its
changes, closed by a commit.  A checkpoint marker says that everything in front of it is in the
checkpoint of that number.
-/

import ColumnStore.Coding.Value

namespace ColumnStore

/-- The kinds of log entries. -/
inductive LogKind where
  | createTable
  | dropTable
  | insert
  | delete
  | update
  | checkpoint
  | commit
  deriving DecidableEq, Repr

namespace LogKind

def all : List LogKind := [createTable, dropTable, insert, delete, update, checkpoint, commit]

/-- The number of a kind in the order of the kinds. -/
def index : LogKind → Nat
  | .createTable => 0
  | .dropTable => 1
  | .insert => 2
  | .delete => 3
  | .update => 4
  | .checkpoint => 5
  | .commit => 6

/-- The tag of a kind in front of an entry. -/
def tag (k : LogKind) : Nat := k.index + 1

/-- The kind with a tag, if there is one. -/
def ofTag? (tag : Nat) : Option LogKind := all.find? (·.tag = tag)

/-- **Tags are read back.** -/
theorem ofTag?_tag (k : LogKind) : ofTag? k.tag = some k := by cases k <;> rfl

def name : LogKind → String
  | .createTable => "CreateTable"
  | .dropTable => "DropTable"
  | .insert => "Insert"
  | .delete => "Delete"
  | .update => "Update"
  | .checkpoint => "Checkpoint"
  | .commit => "Commit"

end LogKind

/-- An entry of the log. -/
inductive LogEntry where
  | createTable (name : String) (columns : List ColumnDefinition)
  | dropTable (name : String)
  | insert (table : String) (rows : List Row)
  | delete (table : String) (rows : List Nat)
  | update (table : String) (column : Nat) (rows : List Nat) (values : List Scalar)
  | checkpoint (iteration : Nat)
  | commit (time : Nat)
  deriving Repr, BEq, Inhabited

namespace LogEntry

def kind : LogEntry → LogKind
  | .createTable .. => .createTable
  | .dropTable _ => .dropTable
  | .insert .. => .insert
  | .delete .. => .delete
  | .update .. => .update
  | .checkpoint _ => .checkpoint
  | .commit _ => .commit

/-- The columns of a new table. -/
def definitions : Coder (String × List ColumnDefinition) :=
  Coder.pair .text (.list Coder.definition)

/-- The rows added to a table. -/
def additions : Coder (String × List Row) := Coder.pair .text (.list Coder.row)

/-- The rows deleted from a table. -/
def deletions : Coder (String × List Nat) := Coder.pair .text (.list Coder.word)

/-- The values written over rows of a column of a table. -/
def updates : Coder (String × Nat × List Nat × List Scalar) :=
  Coder.pair .text (.pair .word (.pair (.list Coder.word) (.list Coder.scalar)))

/-- The bytes of the fields of an entry. -/
def encodeFields : LogEntry → Bytes
  | .createTable name columns => definitions.encode (name, columns)
  | .dropTable name => Coder.text.encode name
  | .insert table rows => additions.encode (table, rows)
  | .delete table rows => deletions.encode (table, rows)
  | .update table column rows values => updates.encode (table, column, rows, values)
  | .checkpoint iteration => Coder.word.encode iteration
  | .commit time => Coder.word.encode time

/-- Reads the fields of an entry of a kind. -/
def decodeFields (b : Bytes) : LogKind → Option (LogEntry × Bytes)
  | .createTable => (definitions.decode b).map fun ((name, columns), b) =>
    (createTable name columns, b)
  | .dropTable => (Coder.text.decode b).map fun (name, b) => (dropTable name, b)
  | .insert => (additions.decode b).map fun ((table, rows), b) => (insert table rows, b)
  | .delete => (deletions.decode b).map fun ((table, rows), b) => (delete table rows, b)
  | .update =>
    (updates.decode b).map fun ((table, column, rows, values), b) =>
      (update table column rows values, b)
  | .checkpoint => (Coder.word.decode b).map fun (iteration, b) => (checkpoint iteration, b)
  | .commit => (Coder.word.decode b).map fun (time, b) => (commit time, b)

/-- Entries, each behind the number of its kind. -/
def coder : Coder LogEntry where
  encode e := Coder.form.encode e.kind.index ++ e.encodeFields
  decode b := do
    let (n, b) ← Coder.form.decode b
    let kind ← LogKind.all[n]?
    decodeFields b kind

end LogEntry
end ColumnStore
