/-
# Refusals of vectors and chunks
-/

import ColumnStore.Failure
import ColumnStore.Value.Type

namespace ColumnStore

/-- Why a vector or a chunk refuses an operation. -/
inductive VectorError where
  /-- A value or vector of another type; `found` is its text or the name of its type. -/
  | typeMismatch (expected : ColumnType) (found : String)
  | indexOutOfBounds (index capacity : Nat)
  | columnCount (expected actual : Nat)
  | capacityExceeded (capacity : Nat)
  /-- A position was used that lies outside the data, or a size past all bounds, without a check in
  front of it. -/
  | outOfRange
  deriving DecidableEq, Repr

namespace VectorError

/-- Whether a position lay outside the data. -/
def isOutOfRange : VectorError → Bool
  | .outOfRange => true
  | _ => false

/-- The kind of a refusal in a word. -/
def kind : VectorError → String
  | .typeMismatch .. => "TypeMismatch"
  | .indexOutOfBounds .. => "IndexOutOfBounds"
  | .columnCount .. => "ColumnCount"
  | .capacityExceeded .. => "CapacityExceeded"
  | .outOfRange => "Position"

def message : VectorError → String
  | .typeMismatch expected found =>
    "Type mismatch: expected " ++ expected.render ++ ", found " ++ found
  | .indexOutOfBounds index capacity =>
    "Index " ++ toString index ++ " out of bounds for capacity " ++ toString capacity
  | .columnCount expected actual =>
    "Chunk has " ++ toString actual ++ " columns, expected " ++ toString expected
  | .capacityExceeded capacity => "Chunk capacity " ++ toString capacity ++ " exceeded"
  | .outOfRange => "Position out of range"

instance : Failure VectorError := ⟨kind, message⟩

end VectorError
end ColumnStore
