/-
# What a table is said to hold

The rows of a table as a list of transactions leaves them, without stamps and versions: each request
is applied to plain rows, the rows that a transaction inserts are its own until it commits, and the
commits take effect in their order (`contentsAt`).  Rows that are deleted keep their places.
-/

import ColumnStore.Proofs.Database.Reading

namespace ColumnStore

/-! ## Requests -/

namespace Request

/-- The value that an update writes to a row, the last one if it names the row several times. -/
def written? (rows : List Nat) (values : ValueVector) (r : Nat) : Option Scalar :=
  (valuesFor r (rows.zip ((values.firstValues? rows.length).getD []))).getLast?

/-- What a request makes of the row with a number. -/
def makes (r : Nat) (v : Option Row) : Request → Option Row
  | .insert _ => v
  | .delete rows => if r ∈ rows then none else v
  | .update i rows values => v.map fun row => row.modify i fun x => (written? rows values r).getD x

/-- The rows that a request adds. -/
def added : Request → List (Option Row)
  | .insert c => c.slots.map c.atSlot?
  | _ => []

/-- A request, if it is one for a table. -/
def about (table : TableId) : Option (TableId × Request) → List Request
  | some (id, q) => if id = table then [q] else []
  | none => []

/-- What requests make of the row with a number, one after the other. -/
def overAll (qs : List Request) (r : Nat) (v : Option Row) : Option Row :=
  qs.foldl (fun v q => q.makes r v) v

/-- What requests make of a row of a table.  A number from `firstLocalRow` on stands for a row of
the transaction. -/
def onRow (qs : List Request) (r : Nat) (v : Option Row) : Option Row :=
  if isLocalRow r then v else overAll qs r v

@[simp] theorem onRow_nil (r : Nat) (v : Option Row) : onRow [] r v = v := by
  rw [onRow]
  split <;> rfl

theorem onRow_snoc (qs : List Request) (q : Request) (r : Nat) (v : Option Row) :
    onRow (qs ++ [q]) r v = if isLocalRow r then v else q.makes r (onRow qs r v) := by
  rw [onRow, onRow, overAll, List.foldl_append]
  split <;> rfl

@[simp] theorem makes_none (q : Request) (r : Nat) : q.makes r none = none := by
  cases q <;> simp [makes]

@[simp] theorem onRow_none (qs : List Request) (r : Nat) : onRow qs r none = none := by
  induction qs using List.reverseRecOn with
  | nil => exact onRow_nil r none
  | append_singleton qs q ih => rw [onRow_snoc, ih, makes_none, ite_self]

end Request

/-! ## Contents -/

/-- What a transaction finds in a table, and what it has inserted itself, none in place of a row that
is deleted. -/
structure Contents where
  rows : List (Option Row) := []
  own : List (Option Row) := []

namespace Contents

/-- What a request of the transaction makes of them. -/
def apply (c : Contents) (q : Request) : Contents where
  rows := c.rows.mapIdx fun r v => if isLocalRow r then v else q.makes r v
  own := c.own.mapIdx (fun j v => q.makes (firstLocalRow + j) v) ++ q.added

/-- What requests of the transaction make of them, one after the other. -/
def after (c : Contents) (qs : List Request) : Contents := qs.foldl apply c

/-- What the commit makes of them: the rows of the transaction that it has not deleted come behind the
others. -/
def close (c : Contents) : Contents := { rows := c.rows ++ c.own.filter (·.isSome) }

/-- The row with a number, none if it is deleted or not there. -/
def row? (c : Contents) (r : Nat) : Option Row := c.rows[r]?.join

variable {c : Contents} {qs : List Request}

theorem after_snoc (c : Contents) (qs : List Request) (q : Request) :
    c.after (qs ++ [q]) = (c.after qs).apply q := List.foldl_append

theorem after_append (c : Contents) (qs more : List Request) :
    c.after (qs ++ more) = (c.after qs).after more := List.foldl_append

theorem rows_after (c : Contents) (qs : List Request) :
    (c.after qs).rows = c.rows.mapIdx (Request.onRow qs) := by
  induction qs using List.reverseRecOn with
  | nil =>
    refine List.ext_getElem? fun r => ?_
    rw [List.getElem?_mapIdx]
    cases h : c.rows[r]? with
    | none => exact h
    | some v => exact h.trans (congrArg some (Request.onRow_nil r v).symm)
  | append_singleton qs q ih =>
    rw [after_snoc, apply, ih, List.mapIdx_mapIdx]
    refine congrArg (List.mapIdx · c.rows) (funext fun r => funext fun v => ?_)
    rw [Request.onRow_snoc, Function.comp_apply]
    split
    · rename_i hlocal
      rw [Request.onRow, if_pos hlocal]
    · rfl

/-- **Each row goes its own way.** -/
theorem row?_after (c : Contents) (qs : List Request) (r : Nat) :
    (c.after qs).row? r = Request.onRow qs r (c.row? r) := by
  rw [row?, row?, rows_after, List.getElem?_mapIdx]
  cases c.rows[r]? with
  | none => exact (Request.onRow_none qs r).symm
  | some v => rfl

theorem length_after (c : Contents) (qs : List Request) :
    (c.after qs).rows.length = c.rows.length := by
  rw [rows_after, List.length_mapIdx]

/-- What a transaction has inserted itself does not depend on the rows that it finds. -/
theorem own_after {c' : Contents} (h : c.own = c'.own) (qs : List Request) :
    (c.after qs).own = (c'.after qs).own := by
  induction qs using List.reverseRecOn with
  | nil => exact h
  | append_singleton qs q ih => rw [after_snoc, after_snoc, apply, apply, ih]

end Contents

/-! ## Traces -/

namespace System

/-- The requests of transaction `k` for a table that were fulfilled, in order. -/
def requestsOf (k : Nat) (table : TableId) (trace : List (Action × Outcome)) : List Request :=
  trace.flatMap fun p =>
    if p.1.worker? = some k then Request.about table (p.1.request? p.2) else []

/-- The transaction that has committed in a step, and the time of the commit. -/
def commit? : Action × Outcome → Option (Nat × Stamp)
  | (.commit k, .committed time) => some (k, time)
  | _ => none

/-- The commits, in the order in which they came. -/
def commits (trace : List (Action × Outcome)) : List (Nat × Stamp) := trace.filterMap commit?

/-- What a table holds when the transactions that have committed up to a time have taken effect, one
after the other. -/
def contentsAt (base : Contents) (table : TableId) (trace : List (Action × Outcome))
    (time : Stamp) : Contents :=
  ((commits trace).filter (·.2 ≤ time)).foldl
    (fun c p => (c.after (requestsOf p.1 table trace)).close) base

/-- What a table holds in the eyes of nobody in particular. -/
def contents (s : System) (table : TableId) : Contents :=
  match s.database.catalog.tables[table]? with
  | none => {}
  | some t =>
    { rows := (List.range t.rows).map (t.row? s.database.source Snapshot.committed) }

end System
end ColumnStore
