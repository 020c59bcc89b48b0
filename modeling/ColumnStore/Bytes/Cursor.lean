/-
# Reading bytes in order

A cursor is a byte string and a position in it.  A read that wants more bytes than are left gives
nothing and the position stays.
-/

import ColumnStore.Bytes.Basic

namespace ColumnStore

/-- A position in a byte string. -/
structure Cursor where
  data : Bytes
  position : Nat := 0
  deriving DecidableEq, Repr

namespace Cursor

/-- The bytes that are left. -/
def left (c : Cursor) : Bytes := c.data.drop c.position

/-- The number of bytes that are left. -/
def remaining (c : Cursor) : Nat := c.data.length - c.position

def has (c : Cursor) (n : Nat) : Bool := n ≤ c.remaining

/-- The next `n` bytes, and the cursor behind them. -/
def take? (c : Cursor) (n : Nat) : Option (Bytes × Cursor) :=
  if c.has n then some (c.left.take n, { c with position := c.position + n }) else none

/-- The number in the next `width` bytes. -/
def nat? (c : Cursor) (width : Nat) : Option (Nat × Cursor) :=
  (c.take? width).map fun (b, c) => (Bytes.toNat b, c)

/-- All bytes that are left. -/
def rest (c : Cursor) : Bytes × Cursor := (c.left, { c with position := c.data.length })

/-- **A read moves the cursor by the bytes read.** -/
theorem take?_append (a b : Bytes) :
    ({ data := a ++ b } : Cursor).take? a.length =
      some (a, { data := a ++ b, position := a.length }) := by
  simp [take?, has, remaining, left]

end Cursor
end ColumnStore
