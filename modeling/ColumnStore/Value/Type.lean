/-
# Column types

A column holds booleans, signed integers of four widths, unsigned 64-bit integers, floating-point
numbers of two widths, text, or lists of one of these, nested to any depth.

| type | names read | storage class | tag | bytes in a packed row |
| --- | --- | --- | ---: | ---: |
| `BOOLEAN` | `BOOLEAN`, `BOOL` | `Bool` | 4 | 1 |
| `TINYINT` | `TINYINT` | `I8` | 5 | 1 |
| `SMALLINT` | `SMALLINT` | `I16` | 6 | 2 |
| `INTEGER` | `INTEGER`, `INT` | `I32` | 7 | 4 |
| `BIGINT` | `BIGINT` | `I64` | 1 | 8 |
| `UBIGINT` | `UBIGINT` | `U64` | 2 | 8 |
| `REAL` | `REAL`, `FLOAT` | `F32` | 8 | 4 |
| `DOUBLE` | `DOUBLE` | `F64` | 3 | 8 |
| `VARCHAR` | `VARCHAR`, `TEXT`, `STRING` | `VarBytes` | 0 | 8 |
| a type and `[]` | | `List` | 9 | none |
-/

import ColumnStore.Text.Blank

namespace ColumnStore

/-- The type of a column. -/
inductive ColumnType where
  | boolean
  | tinyInt
  | smallInt
  | integer
  | bigInt
  | uBigInt
  | real
  | double
  | varchar
  | list (item : ColumnType)
  deriving DecidableEq, Repr, Inhabited

/-- How the values of a type are laid out in memory and on disk. -/
inductive StorageClass where
  | varBytes
  | i64
  | u64
  | f64
  | bool
  | i8
  | i16
  | i32
  | f32
  | list
  deriving DecidableEq, Repr

namespace StorageClass

/-- The tag of a storage class in a segment header. -/
def tag : StorageClass → UInt8
  | .varBytes => 0
  | .i64 => 1
  | .u64 => 2
  | .f64 => 3
  | .bool => 4
  | .i8 => 5
  | .i16 => 6
  | .i32 => 7
  | .f32 => 8
  | .list => 9

/-- The storage class with a tag, if there is one. -/
def ofTag? (tag : UInt8) : Option StorageClass :=
  [varBytes, i64, u64, f64, bool, i8, i16, i32, f32, list][tag.toNat]?

/-- **Tags are read back.** -/
theorem ofTag?_tag (c : StorageClass) : ofTag? c.tag = some c := by cases c <;> rfl

def name : StorageClass → String
  | .varBytes => "VarBytes"
  | .i64 => "I64"
  | .u64 => "U64"
  | .f64 => "F64"
  | .bool => "Bool"
  | .i8 => "I8"
  | .i16 => "I16"
  | .i32 => "I32"
  | .f32 => "F32"
  | .list => "List"

/-- The bytes of one value where values have a fixed width. -/
def width? : StorageClass → Option Nat
  | .bool | .i8 => some 1
  | .i16 => some 2
  | .i32 | .f32 => some 4
  | .i64 | .u64 | .f64 => some 8
  | .varBytes | .list => none

/-- The bytes of a slot in a packed row.  Text takes an offset and a length into a heap; lists
cannot be packed. -/
def rowWidth? : StorageClass → Option Nat
  | .varBytes => some 8
  | c => c.width?

def isFixedWidth (c : StorageClass) : Bool := c.width?.isSome

end StorageClass

namespace ColumnType

def storage : ColumnType → StorageClass
  | .boolean => .bool
  | .tinyInt => .i8
  | .smallInt => .i16
  | .integer => .i32
  | .bigInt => .i64
  | .uBigInt => .u64
  | .real => .f32
  | .double => .f64
  | .varchar => .varBytes
  | .list _ => .list

def isNested : ColumnType → Bool
  | .list _ => true
  | _ => false

/-- The keyword of a type; every list type has the same. -/
def keyword : ColumnType → String
  | .boolean => "BOOLEAN"
  | .tinyInt => "TINYINT"
  | .smallInt => "SMALLINT"
  | .integer => "INTEGER"
  | .bigInt => "BIGINT"
  | .uBigInt => "UBIGINT"
  | .real => "REAL"
  | .double => "DOUBLE"
  | .varchar => "VARCHAR"
  | .list _ => "LIST"

/-- The name of a type as it is written: that of the items of a list, then `[]`. -/
def render : ColumnType → String
  | .list item => item.render ++ "[]"
  | t => t.keyword

/-- The name of a type in capitalised words, as descriptions of segments show it. -/
def describe : ColumnType → String
  | .boolean => "Boolean"
  | .tinyInt => "TinyInt"
  | .smallInt => "SmallInt"
  | .integer => "Integer"
  | .bigInt => "BigInt"
  | .uBigInt => "UBigInt"
  | .real => "Real"
  | .double => "Double"
  | .varchar => "Varchar"
  | .list item => "List(" ++ item.describe ++ ")"

/-- The type with a name in capital letters. -/
def ofKeyword? (name : String) : Option ColumnType :=
  match name with
  | "BOOLEAN" | "BOOL" => some .boolean
  | "TINYINT" => some .tinyInt
  | "SMALLINT" => some .smallInt
  | "INTEGER" | "INT" => some .integer
  | "BIGINT" => some .bigInt
  | "UBIGINT" => some .uBigInt
  | "REAL" | "FLOAT" => some .real
  | "DOUBLE" => some .double
  | "VARCHAR" | "TEXT" | "STRING" => some .varchar
  | _ => none

/-- Reads a type from the characters of its name in reverse order: blanks are skipped, `[]` makes
a list, and what is left must be a keyword in any case. -/
def parseReversed : List Char → Option ColumnType
  | [] => none
  | ']' :: '[' :: rest => (parseReversed rest).map .list
  | c :: rest =>
    if Text.isBlank c then parseReversed rest
    else ofKeyword? (String.ofList ((c :: rest).reverse.map Char.toUpper))

/-- Reads the name of a type, in any case and with blanks at its ends and before each `[]`. -/
def parse? (s : String) : Option ColumnType :=
  parseReversed (s.toList.dropWhile Text.isBlank).reverse

end ColumnType

/-- The name and the type of a column. -/
structure ColumnDefinition where
  name : String
  type : ColumnType
  deriving DecidableEq, Repr, Inhabited

end ColumnStore
