/-
# The layout of packed rows

A packed row starts with one validity bit per column, eight to a byte and the first column in the
lowest bit, a set bit for a valid column.  The slots of the columns follow without gaps.
-/

import ColumnStore.Bytes.Basic
import ColumnStore.Row.Error

namespace ColumnStore

/-- The columns of a packed row. -/
structure RowLayout where
  types : List ColumnType
  deriving DecidableEq, Repr

namespace RowLayout

/-- The layout for columns of the given types; the first list type is refused. -/
def new (types : List ColumnType) : Except MatchError RowLayout :=
  match types.find? (·.storage.rowWidth?.isNone) with
  | some t => .error (.unsupportedType t)
  | none => .ok ⟨types⟩

/-- The bytes of the slot of a column type. -/
def slotWidth (t : ColumnType) : Nat := t.storage.rowWidth?.getD 0

/-- The bytes in front of the first slot. -/
def validityBytes (l : RowLayout) : Nat := (l.types.length + 7) / 8

/-- Where the slots of columns of the given types start when the first starts at `start`. -/
def offsetsFrom (start : Nat) : List ColumnType → List Nat
  | [] => []
  | t :: rest => start :: offsetsFrom (start + slotWidth t) rest

/-- Where each slot starts in a row. -/
def offsets (l : RowLayout) : List Nat := offsetsFrom l.validityBytes l.types

/-- The bytes of the slots of columns of the given types. -/
def slotsWidth : List ColumnType → Nat
  | [] => 0
  | t :: rest => slotWidth t + slotsWidth rest

/-- The bytes of a row. -/
def width (l : RowLayout) : Nat := l.validityBytes + slotsWidth l.types

/-- The byte of the validity bit of a column and the weight of the bit in it. -/
def validityBit (column : Nat) : Nat × Nat := (column / 8, 1 <<< (column % 8))

/-- Whether the validity bit of a column is set in the bytes of a row. -/
def isValid? (row : Bytes) (column : Nat) : Option Bool :=
  row[column / 8]?.map fun byte => byte.toNat.testBit (column % 8)

/-- Bytes with the validity bit of a column set in the row that starts at `start`. -/
def setValid (b : Bytes) (start column : Nat) : Bytes :=
  b.modify (start + column / 8) fun byte => byte ||| UInt8.ofNat (1 <<< (column % 8))

end RowLayout
end ColumnStore
