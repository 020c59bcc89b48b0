/-
# Types and values in coded form

A type and a value start with a number of four bytes that says which form they have.  The items of a
list follow behind their number, so types and values may be nested to any depth.
-/

import ColumnStore.Coding.Coder
import ColumnStore.Segment.Statistics
import ColumnStore.Value.Binary

namespace ColumnStore
namespace Coder

/-- The number that says which form follows. -/
def form : Coder Nat := nat 4

/-- The number of a type. -/
def typeForm : ColumnType → Nat
  | .boolean => 0
  | .tinyInt => 1
  | .smallInt => 2
  | .integer => 3
  | .bigInt => 4
  | .uBigInt => 5
  | .real => 6
  | .double => 7
  | .varchar => 8
  | .list _ => 9

def encodeType : ColumnType → Bytes
  | .list item => form.encode 9 ++ encodeType item
  | t => form.encode (typeForm t)

/-- The type with a number below that of lists. -/
def plainType? (n : Nat) : Option ColumnType :=
  [ColumnType.boolean, .tinyInt, .smallInt, .integer, .bigInt, .uBigInt, .real, .double,
    .varchar][n]?

/-- Reads a type that is nested no deeper than `bound` is long. -/
def decodeType : (bound : Bytes) → Bytes → Option (ColumnType × Bytes)
  | [], _ => none
  | _ :: bound, b => do
    let (n, b) ← form.decode b
    if n = 9 then
      let (item, b) ← decodeType bound b
      some (.list item, b)
    else
      let t ← plainType? n
      some (t, b)

/-- Types.  Each level of nesting takes a byte and more, so the bytes bound the levels. -/
def type : Coder ColumnType where
  encode := encodeType
  decode b := decodeType b b

mutual

def encodeScalar : Scalar → Bytes
  | .null => form.encode 0
  | .boolean v => form.encode 1 ++ bool.encode v
  | .tinyInt v => form.encode 2 ++ (Scalar.tinyInt v).fixed
  | .smallInt v => form.encode 3 ++ (Scalar.smallInt v).fixed
  | .integer v => form.encode 4 ++ (Scalar.integer v).fixed
  | .bigInt v => form.encode 5 ++ (Scalar.bigInt v).fixed
  | .uBigInt v => form.encode 6 ++ (Scalar.uBigInt v).fixed
  | .real v => form.encode 7 ++ (Scalar.real v).fixed
  | .double v => form.encode 8 ++ (Scalar.double v).fixed
  | .varchar s => form.encode 9 ++ text.encode s
  | .list items => form.encode 10 ++ (word.encode items.length ++ encodeScalars items)

def encodeScalars : List Scalar → Bytes
  | [] => []
  | v :: rest => encodeScalar v ++ encodeScalars rest

end

/-- Reads a value of a type of fixed width. -/
def decodeFixed (t : ColumnType) (b : Bytes) : Option (Scalar × Bytes) :=
  (Bytes.split? (t.storage.width?.getD 0) b).map fun (head, rest) => (Scalar.ofFixed t head, rest)

/-- Reads a value that is nested no deeper than `bound` is long. -/
def decodeScalar : (bound : Bytes) → Bytes → Option (Scalar × Bytes)
  | [], _ => none
  | _ :: bound, b => do
    let (n, b) ← form.decode b
    match n with
    | 0 => some (.null, b)
    | 1 => (bool.decode b).map fun (v, b) => (.boolean v, b)
    | 2 => decodeFixed .tinyInt b
    | 3 => decodeFixed .smallInt b
    | 4 => decodeFixed .integer b
    | 5 => decodeFixed .bigInt b
    | 6 => decodeFixed .uBigInt b
    | 7 => decodeFixed .real b
    | 8 => decodeFixed .double b
    | 9 => (text.decode b).map fun (s, b) => (.varchar s, b)
    | 10 => do
      let (count, b) ← word.decode b
      let (items, b) ← decodeMany (decodeScalar bound) count b
      some (.list items, b)
    | _ => none

/-- Values. -/
def scalar : Coder Scalar where
  encode := encodeScalar
  decode b := decodeScalar b b

/-- Rows of values. -/
def row : Coder Row := list scalar

/-- Column definitions. -/
def definition : Coder ColumnDefinition :=
  (pair text type).map (fun (name, type) => ⟨name, type⟩) fun d => (d.name, d.type)

/-- Statistics of a segment. -/
def statistics : Coder Statistics :=
  (pair type (pair (option scalar) (pair (option scalar) (pair word (pair word (bytes 128)))))).map
    (fun (type, least, greatest, nulls, rows, bits) =>
      { type, least, greatest, nulls, rows, distinct := Sketch.ofBytes bits })
    fun s => (s.type, s.least, s.greatest, s.nulls, s.rows, s.distinct.toBytes)

end Coder
end ColumnStore
