/-
# Refusals of packed rows and matchers
-/

import ColumnStore.Row.Comparison
import ColumnStore.Vector.Error

namespace ColumnStore

/-- Why a layout, a collection of packed rows or a matcher refuses an operation. -/
inductive MatchError where
  | unsupportedType (type : ColumnType)
  | unsupportedOperator (op : Comparison) (storage : StorageClass)
  | unknownOperator (text : String)
  | predicateCount (predicates columns : Nat)
  | heapOverflow (length : Nat)
  | vector (cause : VectorError)
  deriving DecidableEq, Repr

namespace MatchError

/-- Whether a position lay outside the data. -/
def isOutOfRange : MatchError → Bool
  | .vector cause => cause.isOutOfRange
  | _ => false

/-- The kind of a refusal in a word, with the kind of its cause behind a point. -/
def kind : MatchError → String
  | .unsupportedType _ => "UnsupportedType"
  | .unsupportedOperator .. => "UnsupportedOperator"
  | .unknownOperator _ => "UnknownOperator"
  | .predicateCount .. => "PredicateCount"
  | .heapOverflow _ => "HeapOverflow"
  | .vector cause => "Vector." ++ cause.kind

def message : MatchError → String
  | .unsupportedType t => "Unsupported type for row matching: " ++ t.render
  | .unsupportedOperator op storage =>
    "Unsupported operator " ++ op.name ++ " for physical type " ++ storage.name
  | .unknownOperator text => "Unknown comparison operator: " ++ text
  | .predicateCount predicates columns =>
    "Predicate count " ++ toString predicates ++ " does not match layout column count " ++
      toString columns
  | .heapOverflow length =>
    "String heap would grow to " ++ toString length ++ " bytes, past the 32-bit offset range"
  | .vector cause => "Vector error: " ++ cause.message

instance : Failure MatchError := ⟨kind, message⟩

end MatchError

/-- Reads an operator or refuses its text. -/
def Comparison.parse (s : String) : Except MatchError Comparison :=
  match Comparison.parse? s with
  | some c => .ok c
  | none => .error (.unknownOperator (Comparison.normalize s))

end ColumnStore
