/-
# Comparison operators

| operator | symbol | also read | on two values | with `NULL` |
| --- | --- | --- | --- | --- |
| `equal` | `=` | `==` | equal | no |
| `notEqual` | `<>` | `!=` | not equal | no |
| `lessThan` | `<` | | less | no |
| `lessThanOrEqual` | `<=` | | not greater | no |
| `greaterThan` | `>` | | greater | no |
| `greaterThanOrEqual` | `>=` | | not less | no |
| `distinctFrom` | `IS DISTINCT FROM` | | not equal | exactly one is `NULL` |
| `notDistinctFrom` | `IS NOT DISTINCT FROM` | | equal | both are `NULL` |
-/

import ColumnStore.Text.Blank

namespace ColumnStore

/-- A comparison of two values. -/
inductive Comparison where
  | equal
  | notEqual
  | lessThan
  | lessThanOrEqual
  | greaterThan
  | greaterThanOrEqual
  | distinctFrom
  | notDistinctFrom
  deriving DecidableEq, Repr

namespace Comparison

/-- All operators, in the order of the table. -/
def all : List Comparison :=
  [equal, notEqual, lessThan, lessThanOrEqual, greaterThan, greaterThanOrEqual, distinctFrom,
    notDistinctFrom]

/-- The outcome for two values in a given order. -/
def onOrder : Comparison → Ordering → Bool
  | .equal, o | .notDistinctFrom, o => o == .eq
  | .notEqual, o | .distinctFrom, o => o != .eq
  | .lessThan, o => o == .lt
  | .lessThanOrEqual, o => o != .gt
  | .greaterThan, o => o == .gt
  | .greaterThanOrEqual, o => o != .lt

/-- The outcome when a side is `NULL`. -/
def onNulls : Comparison → (left right : Bool) → Bool
  | .notDistinctFrom, left, right => left && right
  | .distinctFrom, left, right => left != right
  | _, _, _ => false

/-- Whether the operator asks for more than equality. -/
def isOrdering : Comparison → Bool
  | .lessThan | .lessThanOrEqual | .greaterThan | .greaterThanOrEqual => true
  | _ => false

/-- The operator with its two sides exchanged. -/
def flip : Comparison → Comparison
  | .lessThan => .greaterThan
  | .lessThanOrEqual => .greaterThanOrEqual
  | .greaterThan => .lessThan
  | .greaterThanOrEqual => .lessThanOrEqual
  | c => c

/-- **Exchanging the sides turns the order around.** -/
theorem onOrder_flip (c : Comparison) (o : Ordering) : c.flip.onOrder o.swap = c.onOrder o := by
  cases c <;> cases o <;> rfl

def symbol : Comparison → String
  | .equal => "="
  | .notEqual => "<>"
  | .lessThan => "<"
  | .lessThanOrEqual => "<="
  | .greaterThan => ">"
  | .greaterThanOrEqual => ">="
  | .distinctFrom => "IS DISTINCT FROM"
  | .notDistinctFrom => "IS NOT DISTINCT FROM"

def name : Comparison → String
  | .equal => "Equal"
  | .notEqual => "NotEqual"
  | .lessThan => "LessThan"
  | .lessThanOrEqual => "LessThanOrEqual"
  | .greaterThan => "GreaterThan"
  | .greaterThanOrEqual => "GreaterThanOrEqual"
  | .distinctFrom => "DistinctFrom"
  | .notDistinctFrom => "NotDistinctFrom"

/-- The text of an operator in the form in which it is looked up: without blanks at its ends and in
capital letters. -/
def normalize (s : String) : String := (Text.trim s).map Char.toUpper

/-- Reads an operator. -/
def parse? (s : String) : Option Comparison :=
  match normalize s with
  | "=" | "==" => some .equal
  | "<>" | "!=" => some .notEqual
  | "<" => some .lessThan
  | "<=" => some .lessThanOrEqual
  | ">" => some .greaterThan
  | ">=" => some .greaterThanOrEqual
  | "IS DISTINCT FROM" => some .distinctFrom
  | "IS NOT DISTINCT FROM" => some .notDistinctFrom
  | _ => none

end Comparison
end ColumnStore
