/-
# Selections

A selection lists row numbers, in any order and with repetitions.  Rows are filtered and reordered
by rewriting the selection, not by moving data.
-/

import ColumnStore.Bytes.Basic
import ColumnStore.Vector.Error

namespace ColumnStore

/-- Row numbers in the order in which they are read. -/
abbrev Selection := List Nat

namespace Selection

/-- The rows `0`, …, `n - 1`. -/
def identity (n : Nat) : Selection := List.range n

/-- The bytes of a row number. -/
def numberBytes : Nat := 8

/-- The rows `0`, …, `n - 1`, if there can be so many. -/
def identity? (n : Nat) : Option Selection :=
  if numberBytes * n ≤ Bytes.longest then some (identity n) else none

def isIdentity (s : Selection) : Bool := s == List.range s.length

/-- Replaces the row at a position. -/
def set? (s : Selection) (i row : Nat) : Option Selection :=
  if i < s.length then some (s.set i row) else none

/-- The rows of `outer` at the positions that `inner` lists. -/
def compose? (outer inner : Selection) : Option Selection :=
  inner.mapM fun i => outer[i]?

/-- Refuses a selection that names a row at or past the capacity; the first such row is reported. -/
def verify (s : Selection) (capacity : Nat) : Except VectorError Unit :=
  match s.find? (capacity ≤ ·) with
  | some index => .error (.indexOutOfBounds index capacity)
  | none => .ok ()

end Selection
end ColumnStore
