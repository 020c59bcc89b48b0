/-
# The manifest

The file `CURRENT` names the checkpoint that is installed and the blocks of its metadata, as a JSON
record.  Other fields in the record are ignored.
-/

import ColumnStore.Disk.Blocks
import ColumnStore.Text.Json

namespace ColumnStore

/-- Which checkpoint is installed, the name of its file, and where its metadata lies. -/
structure Manifest where
  iteration : Nat
  file : String
  metadata : BlockPointer
  deriving DecidableEq, Repr

namespace Manifest

/-- The name of the file. -/
def path : String := "CURRENT"

/-- The name of the file until it is whole. -/
def draftPath : String := "CURRENT.tmp"

/-- The text of a field of a record. -/
def field (name value : String) : String := Json.quote name ++ ":" ++ value

/-- The text of a record of fields. -/
def record (fields : List String) : String := "\x7b" ++ ",".intercalate fields ++ "\x7d"

def renderPointer (p : BlockPointer) : String :=
  record [field "block_id" (toString p.block), field "block_count" (toString p.count),
    field "length" (toString p.length)]

/-- The text of a manifest. -/
def render (m : Manifest) : String :=
  record [field "iteration" (toString m.iteration), field "file" (Json.quote m.file),
    field "metadata" (renderPointer m.metadata)]

def pointer? (v : Json) : Option BlockPointer := do
  match ← v.record? ["block_id", "block_count", "length"] with
  | [block, count, length] =>
    pure {
      block := ← block.natBelow? UInt64.size
      count := ← count.natBelow? UInt32.size
      length := ← length.natBelow? UInt64.size }
  | _ => none

/-- Reads a manifest. -/
def parse? (b : Bytes) : Option Manifest := do
  match ← (← Json.parse? b).record? ["iteration", "file", "metadata"] with
  | [iteration, file, metadata] =>
    pure {
      iteration := ← iteration.natBelow? UInt64.size
      file := ← file.text?
      metadata := ← pointer? metadata }
  | _ => none

/-- A manifest is read back. -/
example : parse? (Bytes.ofString (render ⟨1, "a\"b", ⟨2, 1, 538⟩⟩)) =
    some ⟨1, "a\"b", ⟨2, 1, 538⟩⟩ := by
  decide +kernel

end Manifest
end ColumnStore
