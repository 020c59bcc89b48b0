/-
# Chunks of rows

A chunk is a batch of rows, kept column by column in vectors.  A selection, when there is one, says
which slots the rows are in and in which order; without one row `i` is in slot `i`.
-/

import ColumnStore.Vector.Basic

namespace ColumnStore

/-- A batch of rows. -/
structure Chunk where
  columns : List ValueVector
  cardinality : Nat
  capacity : Nat
  selection : Option Selection := none
  deriving Inhabited, Repr

namespace Chunk

/-- A chunk without rows. -/
def new (types : List ColumnType) (capacity : Nat) : Chunk :=
  { columns := types.map (.new · capacity), cardinality := 0, capacity }

/-- A chunk without rows, none when there cannot be so many slots. -/
def new? (types : List ColumnType) (capacity : Nat) : Option Chunk :=
  if types.all (ValueVector.canBeNew · capacity) then some (new types capacity) else none

/-- The first `cardinality` slots of the given vectors.  The capacity is that of the shortest. -/
def ofVectors (columns : List ValueVector) (cardinality : Nat) : Except VectorError Chunk :=
  let capacity := (columns.map ValueVector.capacity).min?.getD cardinality
  if capacity < cardinality then .error (.capacityExceeded capacity)
  else .ok { columns, cardinality, capacity }

def types (c : Chunk) : List ColumnType := c.columns.map ValueVector.type

def isEmpty (c : Chunk) : Bool := c.cardinality == 0

/-- The slot of a row; without a selection every number is one. -/
def slot? (c : Chunk) (row : Nat) : Option Nat :=
  match c.selection with
  | some rows => rows[row]?
  | none => some row

/-- The slots of the rows, in order. -/
def slots (c : Chunk) : List Nat := c.selection.getD (List.range c.cardinality)

def get? (c : Chunk) (column row : Nat) : Option Scalar := do
  let v ← c.columns[column]?
  let i ← c.slot? row
  v.get? i

/-- The values of all columns in a slot. -/
def atSlot? (c : Chunk) (i : Nat) : Option Row := c.columns.mapM (·.get? i)

/-- The bytes of a row besides its values. -/
def rowBytes : Nat := 24

/-- The rows, in order, if there can be so many. -/
def rows? (c : Chunk) : Option (List Row) :=
  if rowBytes * c.cardinality ≤ Bytes.longest then c.slots.mapM c.atSlot? else none

/-- Makes the first `n` slots the rows and drops the selection. -/
def setCardinality (c : Chunk) (n : Nat) : Except VectorError Chunk :=
  if c.capacity < n then .error (.capacityExceeded c.capacity)
  else .ok { c with cardinality := n, selection := none }

/-- Keeps the rows that a selection lists, in its order. -/
def slice (c : Chunk) (rows : Selection) : Except VectorError Chunk := do
  rows.verify c.cardinality
  match c.selection with
  | none => pure { c with cardinality := rows.length, selection := some rows }
  | some current =>
    match current.compose? rows with
    | some rows => pure { c with cardinality := rows.length, selection := some rows }
    | none => throw .outOfRange

/-- The rows copied into a chunk without a selection. -/
def flatten (c : Chunk) : Except VectorError Chunk := do
  let capacity := max c.capacity c.cardinality
  let columns ← c.columns.mapM fun v =>
    ((ValueVector.new v.type capacity).copyRows 0 v c.slots |> fun
      | (.ok (), v') => Except.ok v'
      | (.error e, _) => .error e)
  pure { columns, cardinality := c.cardinality, capacity }

/-- Writes one value into the same slot of each vector, up to the first that is refused. -/
def setAcross : List ValueVector → Nat → Row →
    Attempt VectorError (List ValueVector) Unit
  | v :: vs, i, x :: xs =>
    match v.set i x with
    | (.ok (), v') => let (r, vs') := setAcross vs i xs; (r, v' :: vs')
    | (.error e, v') => (.error e, v' :: vs)
  | vs, _, _ => (.ok (), vs)

/-- Adds a row at the end.  A chunk with a selection is flattened first, and a full one doubled. -/
def appendRow (c : Chunk) (row : Row) : Attempt VectorError Chunk Unit :=
  if row.length ≠ c.columns.length then
    (.error (.columnCount c.columns.length row.length), c)
  else
    match if c.selection.isSome then c.flatten else .ok c with
    | .error e => (.error e, c)
    | .ok c =>
      let c :=
        if c.capacity ≤ c.cardinality then
          let grown := max (c.capacity * 2) 1
          { c with columns := c.columns.map (·.resize grown), capacity := grown }
        else c
      let ⟨columns, cardinality, capacity, selection⟩ := c
      match setAcross columns cardinality row with
      | (.ok (), columns) => (.ok (), ⟨columns, cardinality + 1, capacity, selection⟩)
      | (.error e, columns) => (.error e, ⟨columns, cardinality, capacity, selection⟩)

/-- Adds rows at the end, up to the first that is refused. -/
def appendRows (c : Chunk) : List Row → Attempt VectorError Chunk Unit
  | [] => (.ok (), c)
  | row :: rest =>
    match c.appendRow row with
    | (.ok (), c') => c'.appendRows rest
    | failed => failed

/-- A chunk of the given rows. -/
def ofRows (types : List ColumnType) (rows : List Row) : Except VectorError Chunk :=
  match (new types rows.length).appendRows rows with
  | (.ok (), c) => .ok c
  | (.error e, _) => .error e

/-- The given columns, in the given order, repeated if asked for. -/
def project? (c : Chunk) (columns : List Nat) : Option Chunk :=
  (columns.mapM fun i => c.columns[i]?).map fun vs => { c with columns := vs }

/-- A chunk without rows that keeps its vectors. -/
def reset (c : Chunk) : Chunk :=
  { c with columns := c.columns.map ValueVector.reset, cardinality := 0, selection := none }

/-- Writes a value into a slot of a column. -/
def setValue (c : Chunk) (column i : Nat) (x : Scalar) : Attempt VectorError Chunk Unit :=
  match c.columns[column]? with
  | none => (.error .outOfRange, c)
  | some v =>
    let (r, v') := v.set i x
    (r, { c with columns := c.columns.set column v' })

end Chunk
end ColumnStore
