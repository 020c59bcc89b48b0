/-
# Counting distinct values

A sketch is a set of 1024 bits.  A value sets the bit that its hash selects; from the number of bits
that stay clear the number of distinct values is estimated as `1024 · ln (1024 / clear)`.

The hash folds 64-bit words into a state, each by a rotation, an exclusive or and a multiplication,
and ends with another multiplication and rotation that carry the high bits down.
-/

import ColumnStore.Bytes.Basic
import ColumnStore.Number.Logarithm
import ColumnStore.Value.Scalar

namespace ColumnStore
namespace Hash

def rotateLeft (x : UInt64) (n : UInt64) : UInt64 := (x <<< n) ||| (x >>> (64 - n))

/-- Folds a word into the state. -/
def word (state w : UInt64) : UInt64 := (rotateLeft state 5 ^^^ w) * 0x517CC1B727220A95

/-- Folds bytes into the state: words of eight bytes, then for what is left one of four, one of two
and one of one byte as they fit. -/
def bytes (state : UInt64) (b : Bytes) : UInt64 :=
  match b with
  | [] => state
  | x :: rest =>
    let n := if 8 ≤ b.length then 8 else if 4 ≤ b.length then 4 else if 2 ≤ b.length then 2 else 1
    bytes (word state (UInt64.ofNat (Bytes.toNat (b.take n)))) ((x :: rest).drop n)
termination_by b.length
decreasing_by
  simp only [List.length_drop, List.length_cons]
  repeat' split
  all_goals omega

/-- The last mixing step. -/
def finish (state : UInt64) : UInt64 := rotateLeft (state * 0x9E3779B97F4A7C15) 29

/-- The bits of a 64-bit number plus zero: the zero of negative sign becomes zero and a NaN quiet. -/
def plusZero (bits : UInt64) : UInt64 :=
  if bits = 0x8000000000000000 then 0
  else if Ieee.Format.double.isNaN bits.toNat then bits ||| 0x0008000000000000
  else bits

mutual

/-- The hash of a value; equal numbers of different widths have the same. -/
def scalar : Scalar → UInt64
  | .null => finish (word 0 0)
  | .boolean v => finish (word 0 (if v then 2 else 1))
  | .tinyInt v => finish (word 0 v.toInt64.toUInt64)
  | .smallInt v => finish (word 0 v.toInt64.toUInt64)
  | .integer v => finish (word 0 v.toInt64.toUInt64)
  | .bigInt v => finish (word 0 v.toUInt64)
  | .uBigInt v => finish (word 0 v)
  | .real bits => finish (word 0 (plusZero (Ieee.widen bits)))
  | .double bits => finish (word 0 (plusZero bits))
  | .varchar s => finish (bytes 0 (Bytes.ofString s))
  | .list items => finish (scalars 0 items)

/-- Folds the hashes of the items of a list into the state. -/
def scalars (state : UInt64) : List Scalar → UInt64
  | [] => state
  | v :: rest => scalars (word state (scalar v)) rest

end

end Hash

/-- The bits that the values seen so far have set. -/
structure Sketch where
  bits : BitVec 1024 := 0
  deriving DecidableEq, Repr

namespace Sketch

/-- The bit of a value. -/
def slot (v : Scalar) : Nat := (Hash.scalar v).toNat % 1024

def insert (s : Sketch) (v : Scalar) : Sketch := ⟨s.bits ||| (1 <<< slot v)⟩

def merge (s t : Sketch) : Sketch := ⟨s.bits ||| t.bits⟩

/-- The number of bits that are clear. -/
def clear (s : Sketch) : Nat := (List.range 1024).countP fun i => !s.bits.getLsbD i

/-- The estimate of the number of distinct values; the largest number there is when no bit is
clear. -/
def estimate (s : Sketch) : Nat :=
  match s.clear with
  | 0 => UInt64.size - 1
  | n + 1 => Logarithm.scaledLog 1024 1024 (n + 1)

/-- The bits in bytes. -/
def toBytes (s : Sketch) : Bytes := Bytes.ofNat 128 s.bits.toNat

def ofBytes (b : Bytes) : Sketch := ⟨.ofNat 1024 (Bytes.toNat b)⟩

end Sketch
end ColumnStore
