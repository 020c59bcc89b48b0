/-
# Statistics of a segment

The least and the greatest value, how many rows there are and how many of them are `NULL`, and a
sketch of the distinct values.  An update widens the bounds and never narrows them, so they hold for
every value that any snapshot can read.  After an update the number of `NULL` rows only tells
whether there may be one.

A comparison with a constant can be decided for the whole segment when the bounds say so.
-/

import ColumnStore.Row.Comparison
import ColumnStore.Segment.Sketch
import ColumnStore.Value.Order
import ColumnStore.Vector.Basic

namespace ColumnStore

/-- What a comparison with a constant gives on a segment. -/
inductive Verdict where
  /-- No row passes. -/
  | alwaysFalse
  /-- Every row passes. -/
  | alwaysTrue
  | unknown
  deriving DecidableEq, Repr

def Verdict.name : Verdict → String
  | .alwaysFalse => "AlwaysFalse"
  | .alwaysTrue => "AlwaysTrue"
  | .unknown => "Unknown"

/-- Statistics of the rows of a segment. -/
structure Statistics where
  type : ColumnType
  least : Option Scalar := none
  greatest : Option Scalar := none
  nulls : Nat := 0
  rows : Nat := 0
  distinct : Sketch := {}
  deriving Repr, BEq

namespace Statistics

def hasNulls (s : Statistics) : Bool := 0 < s.nulls

/-- The estimated number of distinct values, between one and the number of rows that are not
`NULL`. -/
def distinctHint (s : Statistics) : Nat :=
  match s.least with
  | none => 0
  | some _ => min (max s.distinct.estimate 1) (max (s.rows - s.nulls) 1)

/-- Widens the bounds to a value that is not `NULL`; of equal values the first stays the bound. -/
def widen (s : Statistics) (v : Scalar) : Statistics :=
  { s with
    least := match s.least with
      | some low => if v.order? low = some .lt then some v else some low
      | none => some v
    greatest := match s.greatest with
      | some high => if v.order? high = some .gt then some v else some high
      | none => some v
    distinct := s.distinct.insert v }

/-- Takes the value of a new row into account. -/
def add (s : Statistics) (v : Scalar) : Statistics :=
  let s := { s with rows := s.rows + 1 }
  if v.isNull then { s with nulls := s.nulls + 1 } else s.widen v

def addAll (s : Statistics) (vs : List Scalar) : Statistics := vs.foldl add s

/-- Takes a value into account that is written over a row. -/
def update (s : Statistics) (v : Scalar) : Statistics :=
  if v.isNull then { s with nulls := max s.nulls 1 } else s.widen v

/-- The statistics of the rows of both. -/
def merge (s t : Statistics) : Statistics :=
  let s := { s with rows := s.rows + t.rows, nulls := s.nulls + t.nulls }
  let s := match t.least with
    | some v => s.widen v
    | none => s
  let s := match t.greatest with
    | some v => s.widen v
    | none => s
  { s with distinct := s.distinct.merge t.distinct }

/-- The verdict on a comparison with `NULL`. -/
def checkNull (s : Statistics) (op : Comparison) : Verdict :=
  match op with
  | .notDistinctFrom =>
    if !s.hasNulls then .alwaysFalse else if s.least.isNone then .alwaysTrue else .unknown
  | .distinctFrom =>
    if !s.hasNulls then .alwaysTrue else if s.least.isNone then .alwaysFalse else .unknown
  | _ => .alwaysFalse

/-- Whether no row and whether every row passes a comparison with a constant, given the order of the
constant to the two bounds and whether there are no `NULL` rows. -/
def neverAlways (op : Comparison) (toLeast toGreatest : Ordering) (noNulls : Bool) : Bool × Bool :=
  let single := toLeast == .eq && toGreatest == .eq
  let outside := toLeast == .lt || toGreatest == .gt
  match op with
  | .equal | .notDistinctFrom => (outside, single && noNulls)
  | .notEqual => (single, outside && noNulls)
  | .distinctFrom => (single && noNulls, outside)
  | .lessThan => (toLeast != .gt, toGreatest == .gt && noNulls)
  | .lessThanOrEqual => (toLeast == .lt, toGreatest != .lt && noNulls)
  | .greaterThan => (toGreatest != .lt, toLeast == .lt && noNulls)
  | .greaterThanOrEqual => (toGreatest == .gt, toLeast != .gt && noNulls)

/-- The verdict on `column op constant`. -/
def check (s : Statistics) (op : Comparison) (constant : Scalar) : Verdict :=
  if s.rows = 0 then .alwaysFalse
  else if constant.isNull then s.checkNull op
  else
    match s.least, s.greatest with
    | some low, some high =>
      match constant.order? low, constant.order? high with
      | some toLeast, some toGreatest =>
        match neverAlways op toLeast toGreatest (!s.hasNulls) with
        | (true, _) => .alwaysFalse
        | (false, true) => .alwaysTrue
        | (false, false) => .unknown
      | _, _ => .unknown
    | _, _ => if op = .distinctFrom then .alwaysTrue else .alwaysFalse

end Statistics
end ColumnStore
