/-
# Packed rows

Rows of one layout lie one behind the other in one byte string, all of the same width.  The bytes of
text are in a heap that all rows share; the slot of a text holds its place and its length there, in 32
bits each.

Rows are added as `NULL`s and written in place.  When a value is refused on the way, the rows that were
added and their texts are cut off again.
-/

import ColumnStore.Attempt
import ColumnStore.Bytes.Utf8
import ColumnStore.Row.Layout
import ColumnStore.Value.Binary
import ColumnStore.Vector.Chunk

namespace ColumnStore

/-- Packed rows of one layout. -/
structure PackedRows where
  layout : RowLayout
  size : Nat := 0
  bytes : Bytes := []
  heap : Bytes := []
  deriving Repr

namespace PackedRows

/-- Where the bytes of a row start. -/
def start (p : PackedRows) (row : Nat) : Nat := row * p.layout.width

/-- The bytes of a row.  Without columns every row is empty, also one that is not there. -/
def row? (p : PackedRows) (i : Nat) : Option Bytes :=
  if i + 1 < UInt64.size then p.bytes.slice? (p.start i) p.layout.width else none

/-- Whether `n` more rows can be numbered. -/
def hasRoom (p : PackedRows) (n : Nat) : Bool := p.size + n < UInt64.size

/-- Adds `n` rows with every column `NULL`. -/
def allocate (p : PackedRows) (n : Nat) : PackedRows :=
  { p with size := p.size + n, bytes := p.bytes.padTo ((p.size + n) * p.layout.width) }

/-- Keeps the first rows and the first bytes of the heap. -/
def truncate (p : PackedRows) (size heap : Nat) : PackedRows :=
  { p with size, bytes := p.bytes.take (size * p.layout.width), heap := p.heap.take heap }

/-- Where a text of `length` bytes goes in a heap: its start, unless its end is past 32 bits. -/
def heapSlot (heap length : Nat) : Except MatchError Nat :=
  let stop := heap + length
  if UInt32.size ≤ stop then .error (.heapOverflow stop) else .ok heap

/-- Writes the bytes of a value into its slot of a row and sets the validity bit. -/
def fill (p : PackedRows) (row column : Nat) (slot : Bytes) : Attempt MatchError PackedRows Unit :=
  let start := p.start row
  match p.layout.offsets[column]? with
  | none => (.error (.vector .outOfRange), p)
  | some offset =>
    if start + p.layout.width ≤ p.bytes.length ∧ offset + slot.length ≤ p.layout.width then
      (.ok (), { p with
        bytes := RowLayout.setValid (p.bytes.overwrite (start + offset) slot) start column })
    else (.error (.vector .outOfRange), p)

/-- Writes a value into its slot of a row, text to the end of the heap; `NULL` and lists are left
out. -/
def store (p : PackedRows) (row column : Nat) (v : Scalar) : Attempt MatchError PackedRows Unit :=
  match v with
  | .null | .list _ => (.ok (), p)
  | .varchar s =>
    let text := Bytes.ofString s
    match heapSlot p.heap.length text.length with
    | .error e => (.error e, p)
    | .ok start =>
      { p with heap := p.heap ++ text }.fill row column
        (Bytes.ofNat 4 start ++ Bytes.ofNat 4 text.length)
  | v => p.fill row column v.fixed

/-- Writes the values of a row from column `column` on, up to the first that is refused. -/
def storeFrom (p : PackedRows) (row column : Nat) : Row → Attempt MatchError PackedRows Unit
  | [] => (.ok (), p)
  | v :: rest =>
    if v.isNull then p.storeFrom row (column + 1) rest
    else
      match p.layout.types[column]? with
      | none => (.error (.vector .outOfRange), p)
      | some t =>
        if v.fits t then (p.store row column v).andThen fun _ p => p.storeFrom row (column + 1) rest
        else (.error (.vector (.typeMismatch t v.render)), p)

/-- Adds `n` rows and writes them; when that fails they are taken away, and their texts. -/
def extend (p : PackedRows) (n : Nat) (write : PackedRows → Attempt MatchError PackedRows Unit) :
    Attempt MatchError PackedRows Unit :=
  if !p.hasRoom n then (.error (.vector .outOfRange), p)
  else
    match write (p.allocate n) with
    | (.ok (), p') => (.ok (), p')
    | (.error e, p') => (.error e, p'.truncate p.size p.heap.length)

/-- Adds a row and gives its number. -/
def appendRow (p : PackedRows) (values : Row) : Attempt MatchError PackedRows Nat :=
  let columns := p.layout.types.length
  if values.length ≠ columns then (.error (.vector (.columnCount columns values.length)), p)
  else (p.extend 1 (·.storeFrom p.size 0 values)).andThen fun _ p' => (.ok p.size, p')

/-- Writes the values that a vector has for `left` rows of a chunk, from row `i` on, into a column
of as many packed rows. -/
def scatter (c : Chunk) (v : ValueVector) (first column : Nat) :
    (left i : Nat) → PackedRows → Attempt MatchError PackedRows Unit
  | 0, _, p => (.ok (), p)
  | left + 1, i, p =>
    match (c.slot? i).bind v.get? with
    | none => (.error (.vector .outOfRange), p)
    | some x =>
      (p.store (first + i) column x).andThen fun _ p => scatter c v first column left (i + 1) p

/-- Writes columns of a chunk from column `column` on. -/
def scatterFrom (c : Chunk) (first column : Nat) :
    List ValueVector → PackedRows → Attempt MatchError PackedRows Unit
  | [], p => (.ok (), p)
  | v :: rest, p =>
    if v.type.isNested then (.error (.unsupportedType v.type), p)
    else
      (scatter c v first column c.cardinality 0 p).andThen fun _ p =>
        scatterFrom c first (column + 1) rest p

/-- Refuses a chunk whose first columns are not of the types of a layout. -/
def checkTypes : List ColumnType → List ColumnType → Except MatchError Unit
  | t :: ts, u :: us =>
    if u = t then checkTypes ts us else .error (.vector (.typeMismatch t u.render))
  | _, _ => .ok ()

/-- Adds the rows of a chunk, column by column, and gives the number of the first and the one past
the last. -/
def appendChunk (p : PackedRows) (c : Chunk) : Attempt MatchError PackedRows (Nat × Nat) :=
  let columns := p.layout.types.length
  if c.columns.length < columns then
    (.error (.vector (.columnCount columns c.columns.length)), p)
  else
    match checkTypes p.layout.types c.types with
    | .error e => (.error e, p)
    | .ok () =>
      (p.extend c.cardinality (scatterFrom c p.size 0 (c.columns.take columns))).andThen
        fun _ p' => (.ok (p.size, p.size + c.cardinality), p')

/-- The text bytes that the slot of a column refers to. -/
def text? (p : PackedRows) (row column : Nat) : Option Bytes := do
  let bytes ← p.row? row
  let offset ← p.layout.offsets[column]?
  let start ← bytes.slice? offset 4
  let length ← bytes.slice? (offset + 4) 4
  p.heap.slice? start.toNat length.toNat

/-- Whether a column of a row is valid, read off the bit; none for a row or a bit that is not
there. -/
def isValid? (p : PackedRows) (row column : Nat) : Option Bool :=
  (p.row? row).bind fun bytes => RowLayout.isValid? bytes column

/-- The value of a column of a row. -/
def get? (p : PackedRows) (row column : Nat) : Option Scalar :=
  match p.isValid? row column with
  | none => none
  | some false => some .null
  | some true =>
    match p.layout.types[column]? with
    | none => none
    | some .varchar =>
      (p.text? row column).map fun b => .varchar ((Utf8.decode b).toOption.getD "")
    | some t => do
      let bytes ← p.row? row
      let offset ← p.layout.offsets[column]?
      let slot ← bytes.slice? offset (RowLayout.slotWidth t)
      pure (Scalar.ofFixed t slot)

/-- One column of the given rows as a vector. -/
def gather (p : PackedRows) (column : Nat) (rows : List Nat) : Except VectorError ValueVector :=
  match p.layout.types[column]?, rows.mapM (p.get? · column) with
  | some t, some values => ValueVector.ofValues t values
  | _, _ => .error .outOfRange

end PackedRows
end ColumnStore
