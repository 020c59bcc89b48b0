/-
# The catalog

A catalog finds tables by name.  Tables are kept by number: who holds a table keeps it when its name
is taken away, and a new table of the same name is another one.
-/

import ColumnStore.Table.Basic

namespace ColumnStore

/-- The number of a table. -/
abbrev TableId := Nat

/-- All tables ever made, and the names of those that are not dropped, in ascending order. -/
structure Catalog where
  tables : Array Table := #[]
  names : List (String × TableId) := []
  deriving Repr, Inhabited

namespace Catalog

/-- The number of the table with a name. -/
def find? (c : Catalog) (name : String) : Option TableId := c.names.lookup name

/-- The number of the table with a name, or a refusal. -/
def get (c : Catalog) (name : String) : Except StorageError TableId :=
  match c.find? name with
  | some id => .ok id
  | none => .error (.tableNotFound name)

def contains (c : Catalog) (name : String) : Bool := (c.find? name).isSome

/-- The table with a number. -/
def table (c : Catalog) (id : TableId) : Table := c.tables.getD id default

/-- Puts another state of a table in place. -/
def setTable (c : Catalog) (id : TableId) (t : Table) : Catalog :=
  { c with tables := c.tables.setIfInBounds id t }

/-- The numbers of the tables that are not dropped, in the order of their names. -/
def ids (c : Catalog) : List TableId := c.names.map (·.2)

/-- Puts a name into ascending names. -/
def insertName (name : String) (id : TableId) : List (String × TableId) → List (String × TableId)
  | [] => [(name, id)]
  | (n, i) :: rest =>
    if name < n then (name, id) :: (n, i) :: rest else (n, i) :: insertName name id rest

/-- Adds a table under its name, which must be free. -/
def insert (c : Catalog) (t : Table) : Except StorageError (TableId × Catalog) :=
  if c.contains t.name then .error (.tableExists t.name)
  else
    .ok (c.tables.size,
      { tables := c.tables.push t, names := insertName t.name c.tables.size c.names })

/-- Takes the name of a table away and marks the table dropped. -/
def remove (c : Catalog) (name : String) : Except StorageError (TableId × Catalog) := do
  let id ← c.get name
  let c := c.setTable id { c.table id with dropped := true }
  pure (id, { c with names := c.names.filter (·.1 ≠ name) })

/-- Changes a table and keeps what the attempt leaves of it. -/
def change {ε α : Type} (c : Catalog) (id : TableId) (f : Table → Attempt ε Table α) :
    Attempt ε Catalog α :=
  let (r, t) := f (c.table id)
  (r, c.setTable id t)

end Catalog
end ColumnStore
