/-
# Compression schemes

| scheme | name | also read | tag | |
| --- | --- | --- | ---: | --- |
| `uncompressed` | `none` | `uncompressed` | 0 | values as they are |
| `constant` | `constant` | | 1 | one value for every row that is not `NULL` |
| `lz4` | `lz4` | | 2 | LZ4 block behind its decoded length |
| `zstd` | `zstd` | | 3 | Zstandard frames |

The constant scheme is chosen for a segment and cannot be asked for.
-/

import ColumnStore.Text.Blank

namespace ColumnStore

/-- How the values of a segment are stored. -/
inductive Scheme where
  | uncompressed
  | constant
  | lz4
  | zstd
  deriving DecidableEq, Repr, Inhabited

namespace Scheme

def tag : Scheme → UInt8
  | .uncompressed => 0
  | .constant => 1
  | .lz4 => 2
  | .zstd => 3

/-- The scheme with a tag, if there is one. -/
def ofTag? (tag : UInt8) : Option Scheme := [uncompressed, constant, lz4, zstd][tag.toNat]?

/-- **Tags are read back.** -/
theorem ofTag?_tag (s : Scheme) : ofTag? s.tag = some s := by cases s <;> rfl

def name : Scheme → String
  | .uncompressed => "none"
  | .constant => "constant"
  | .lz4 => "lz4"
  | .zstd => "zstd"

/-- The text of a scheme in the form in which it is looked up: without blanks at its ends and in
small letters. -/
def normalize (s : String) : String := (Text.trim s).map Char.toLower

/-- Reads a scheme that can be asked for. -/
def parse? (s : String) : Option Scheme :=
  match normalize s with
  | "none" | "uncompressed" => some .uncompressed
  | "lz4" => some .lz4
  | "zstd" => some .zstd
  | _ => none

end Scheme
end ColumnStore
