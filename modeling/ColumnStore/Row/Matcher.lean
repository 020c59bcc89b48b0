/-
# Matching columns against packed rows

A matcher has one operator per column of a layout.  It keeps of a selection the rows for which every
column of a chunk compares as asked with the packed row that is paired with it, and lists the other
rows in the order in which they are rejected: first by the column, then by their place in the
selection.
-/

import ColumnStore.Row.Packed
import ColumnStore.Value.Order

namespace ColumnStore

/-- Operators, one per column. -/
structure Matcher where
  predicates : List Comparison
  deriving DecidableEq, Repr

/-- The rows that a match has kept and those it has rejected so far. -/
structure Matching where
  selected : Selection
  rejected : Selection
  deriving DecidableEq, Repr

namespace Matcher

/-- Whether values of a type can be matched with an operator; booleans have no order. -/
def supports (op : Comparison) (t : ColumnType) : Except MatchError Unit :=
  match t with
  | .list _ => .error (.unsupportedType t)
  | .boolean => if op.isOrdering then .error (.unsupportedOperator op t.storage) else .ok ()
  | _ => .ok ()

/-- Refuses the first operator that does not go with the type of its column. -/
def checkAll : List Comparison → List ColumnType → Except MatchError Unit
  | op :: ops, t :: ts => do supports op t; checkAll ops ts
  | _, _ => .ok ()

def new (layout : RowLayout) (predicates : List Comparison) : Except MatchError Matcher := do
  let columns := layout.types.length
  unless predicates.length = columns do throw (.predicateCount predicates.length columns)
  checkAll predicates layout.types
  pure ⟨predicates⟩

/-- Whether the values in the slot `i` of a vector and in a column of a packed row compare as asked;
none for a position that is not there. -/
def compares? (op : Comparison) (v : ValueVector) (i : Nat) (p : PackedRows) (row column : Nat) :
    Option Bool := do
  let x ← v.raw? i
  let y ← p.get? row column
  let o ← x.order? y
  pure (op.onOrder o)

/-- Whether the slot `i` of a vector compares as asked with a column of a packed row; none for a
position that is not there.  The marks of a vector that keeps none are not looked at, the validity
bit of the packed row always is. -/
def holds? (op : Comparison) (v : ValueVector) (i : Nat) (p : PackedRows) (row column : Nat) :
    Option Bool := do
  let right ← p.isValid? row column
  if v.validity.allValid then
    if right then compares? op v i p row column else pure (op.onNulls false true)
  else
    let left ← v.validity.get? i
    if left && right then compares? op v i p row column else pure (op.onNulls (!left) (!right))

/-- Reads `left` rows of a selection from position `i` on.  A row for which a test holds is written
behind the `kept` ones at the front, over a row that was read already or over itself; the others are
added to the rejected rows. -/
def sift (test : Nat → Option Bool) :
    (left i kept : Nat) → (rows rejected : Array Nat) → Option (Nat × Array Nat × Array Nat)
  | 0, _, kept, rows, rejected => some (kept, rows, rejected)
  | left + 1, i, kept, rows, rejected => do
    let row ← rows[i]?
    if ← test row then sift test left (i + 1) (kept + 1) (rows.setIfInBounds kept row) rejected
    else sift test left (i + 1) kept rows (rejected.push row)

/-- Divides a selection in place into the rows for which a test holds and the others. -/
def divide (test : Nat → Option Bool) (s : Selection) : Option (Selection × Selection) :=
  (sift test s.length 0 0 s.toArray #[]).map fun (kept, rows, rejected) =>
    ((rows.take kept).toList, rejected.toList)

/-- Applies the operators from column `column` on, until no row is left. -/
def runFrom (p : PackedRows) (pointers : List Nat) (slots : Option Selection)
    (columns : List ValueVector) (column : Nat) :
    List Comparison → Matching → Attempt MatchError Matching Nat
  | [], m => (.ok m.selected.length, m)
  | op :: ops, m =>
    if m.selected.isEmpty then (.ok 0, m)
    else
      match columns[column]?, p.layout.types[column]? with
      | some v, some t =>
        if v.type = t then
          let test row := do
            let i ← match slots with
              | some s => s[row]?
              | none => some row
            holds? op v i p (← pointers[row]?) column
          match divide test m.selected with
          | none => (.error (.vector .outOfRange), m)
          | some (yes, no) =>
            runFrom p pointers slots columns (column + 1) ops ⟨yes, m.rejected ++ no⟩
        else (.error (.vector (.typeMismatch t v.type.render)), m)
      | _, _ => (.error (.vector .outOfRange), m)

/-- Matches columns that share a selection of slots against packed rows.  Row `i` of the columns is
paired with the packed row that `pointers` has at `i`. -/
def runColumns (matcher : Matcher) (columns : List ValueVector) (slots : Option Selection)
    (p : PackedRows) (pointers : List Nat) (m : Matching) :
    Attempt MatchError Matching Nat :=
  let needed := p.layout.types.length
  if columns.length < needed then (.error (.vector (.columnCount needed columns.length)), m)
  else runFrom p pointers slots columns 0 matcher.predicates m

/-- Matches the rows of a chunk against packed rows. -/
def run (matcher : Matcher) (c : Chunk) (p : PackedRows) (pointers : List Nat) (m : Matching) :
    Attempt MatchError Matching Nat :=
  matcher.runColumns c.columns c.selection p pointers m

end Matcher
end ColumnStore
