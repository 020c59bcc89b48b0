/-
# Filters

A filter compares a column with a constant.  A conjunction of filters is bound to a table: each
constant is cast to the type of its column, and the constants form a packed row that a matcher
compares rows with.

An integer that is not in the range of an integer column is on one side of all its values, so the
filter says no more than that the column is not `NULL`, or holds always, or never.
-/

import ColumnStore.Row.Matcher
import ColumnStore.Table.Basic
import ColumnStore.Value.Cast

namespace ColumnStore

/-- `column op constant`. -/
structure Filter where
  column : Nat
  op : Comparison
  constant : Scalar
  deriving Repr, BEq

/-- What a filter comes to on a column. -/
inductive BoundFilter where
  | compare (f : Filter)
  | always
  | never

namespace BoundFilter

/-- The filter that is left, if one is. -/
def filter? : BoundFilter → Option Filter
  | .compare f => some f
  | .always | .never => none

def isNever : BoundFilter → Bool
  | .never => true
  | .compare _ | .always => false

end BoundFilter

namespace Filter

/-- A filter with an integer constant outside the range of the type of its column; none for any
other filter. -/
def bindOutOfRange? (f : Filter) (t : ColumnType) : Option BoundFilter := do
  let n ← f.constant.toInt?
  let (low, high) ← t.range?
  let compare op bound := BoundFilter.compare { f with op, constant := Scalar.ofInt t bound }
  let atMost := compare .lessThanOrEqual high
  let atLeast := compare .greaterThanOrEqual low
  if low ≤ n ∧ n ≤ high then none
  else
    match f.op with
    | .distinctFrom => some .always
    | .notEqual => some (if high < n then atMost else atLeast)
    | .lessThan | .lessThanOrEqual => some (if high < n then atMost else .never)
    | .greaterThan | .greaterThanOrEqual => some (if high < n then .never else atLeast)
    | .equal | .notDistinctFrom => some .never

/-- What a filter comes to on a column of a type. -/
def bind (f : Filter) (t : ColumnType) : Except StorageError BoundFilter :=
  match f.constant.cast? t with
  | some constant => .ok (.compare { f with constant })
  | none =>
    match f.bindOutOfRange? t with
    | some bound => .ok bound
    | none => .error (.vector (.typeMismatch t f.constant.render))

end Filter

/-- A conjunction of filters bound to a table; without a matcher it never holds. -/
structure BoundFilters where
  filters : List Filter
  matcher : Option (Matcher × PackedRows)
  deriving Repr

namespace BoundFilters

/-- The conjunction that never holds. -/
def never : BoundFilters := ⟨[], none⟩

def isNever (b : BoundFilters) : Bool := b.matcher.isNone

/-- The columns that the filters read, one for each. -/
def columns (b : BoundFilters) : List Nat := b.filters.map (·.column)

/-- What filters come to one by one. -/
def bindEach (t : Table) (filters : List Filter) : Except StorageError (List BoundFilter) :=
  filters.mapM fun f =>
    match t.types[f.column]? with
    | none => .error (.columnOutOfRange t.name f.column)
    | some type => f.bind type

/-- The matcher for filters, and the row of their constants. -/
def constants (t : Table) (filters : List Filter) : Except MatchError (Matcher × PackedRows) := do
  let layout ← RowLayout.new (filters.filterMap fun f => t.types[f.column]?)
  let matcher ← Matcher.new layout (filters.map (·.op))
  match PackedRows.appendRow { layout } (filters.map (·.constant)) with
  | (.ok _, packed) => pure (matcher, packed)
  | (.error e, _) => throw e

/-- Binds filters to a table; none when they hold always. -/
def bind (t : Table) (filters : List Filter) : Except StorageError (Option BoundFilters) := do
  let bound ← bindEach t filters
  let compared := bound.filterMap BoundFilter.filter?
  if bound.any BoundFilter.isNever then pure (some never)
  else if compared.isEmpty then pure none
  else
    match constants t compared with
    | .error e => throw (.filter e)
    | .ok matcher => pure (some ⟨compared, some matcher⟩)

/-- The verdict of filters on the segment with a number. -/
def pruneFrom (t : Table) (segment : Nat) (verdict : Verdict) : List Filter → Verdict
  | [] => verdict
  | f :: rest =>
    match t.columns[f.column]?.bind (·.segments[segment]?) with
    | none => .unknown
    | some s =>
      match s.statistics.check f.op f.constant with
      | .alwaysFalse => .alwaysFalse
      | .alwaysTrue => pruneFrom t segment verdict rest
      | .unknown => pruneFrom t segment .unknown rest

/-- What the statistics of a segment say about the conjunction. -/
def prune (b : BoundFilters) (t : Table) (segment : Nat) : Verdict :=
  if b.isNever then .alwaysFalse else pruneFrom t segment .alwaysTrue b.filters

/-- Keeps of a selection the rows that pass every filter.  The inputs are the columns that the
filters read, one for each, with `count` slots. -/
def apply (b : BoundFilters) (inputs : List ValueVector) (count : Nat) (selection : Selection) :
    Except StorageError Selection :=
  match b.matcher with
  | none => .ok []
  | some (matcher, packed) =>
    if inputs.length ≠ b.filters.length then
      .error (.vector (.columnCount b.filters.length inputs.length))
    else
      match matcher.runColumns inputs none packed (List.replicate count 0) ⟨selection, []⟩ with
      | (.ok _, m) => .ok m.selected
      | (.error e, _) => .error (.filter e)

end BoundFilters
end ColumnStore
