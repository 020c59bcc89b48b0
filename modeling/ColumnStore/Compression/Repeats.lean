/-
# Repetitions in a byte string

A byte string is divided into runs of literal bytes and copies of bytes that came a few bytes
earlier.  A copy may reach into itself: then it repeats what it has just written.

`factor` finds such a division, `expand` undoes it.  Every copy that `factor` makes was compared
byte by byte, so it does not matter for its use how the copies were found.
-/

import ColumnStore.Bytes.Basic

namespace ColumnStore

/-- Literal bytes, then `length` bytes each equal to the one `offset` places before it. -/
structure Repeat where
  literals : Bytes
  offset : Nat
  length : Nat
  deriving DecidableEq, Repr

/-- Repeats and the literal bytes behind the last one. -/
structure Factoring where
  repeats : List Repeat
  tail : Bytes
  deriving DecidableEq, Repr

namespace Repeat

/-- Adds bytes that came `offset` places earlier, one at a time. -/
def copyBack (out : Array UInt8) (offset : Nat) : Nat → Array UInt8
  | 0 => out
  | n + 1 => copyBack (out.push (out.getD (out.size - offset) 0)) offset n

/-- Adds a repeat to what was written so far; none if the copy starts in front of the first byte, or
more than `limit` bytes would be written. -/
def expand (limit : Nat) (out : Array UInt8) (r : Repeat) : Option (Array UInt8) :=
  let out := out ++ r.literals
  if r.offset = 0 || out.size < r.offset || limit < out.size + r.length then none
  else some (copyBack out r.offset r.length)

end Repeat

namespace Factoring

/-- Adds repeats and a tail to what was written so far. -/
def expand (limit : Nat) (out : Array UInt8) (f : Factoring) : Option (Array UInt8) := do
  let out ← f.repeats.foldlM (Repeat.expand limit) out
  let out := out ++ f.tail
  if limit < out.size then none else some out

/-- How many bytes from `i` on, `fuel` at most, are equal to those `offset` places earlier. -/
def matchLength (data : Array UInt8) (offset : Nat) : (fuel i : Nat) → Nat
  | 0, _ => 0
  | fuel + 1, i =>
    if data[i]? = data[i - offset]? then matchLength data offset fuel (i + 1) + 1 else 0

/-- The longest copy, and the largest offset of one. -/
def longest : Nat := 65535

/-- A hash of the four bytes from `i` on, below 1024. -/
def hashAt (data : Array UInt8) (i : Nat) : Nat :=
  let byte k := (data.getD (i + k) 0).toUInt32
  let word := byte 0 ||| (byte 1 <<< 8) ||| (byte 2 <<< 16) ||| (byte 3 <<< 24)
  ((word * 2654435761) >>> 22).toNat

/-- For each hash, one more than the last place where four bytes had it, or 0. -/
abbrev Places := Array Nat

/-- The offset and the length of a copy at `i` of at most `room` bytes, from the last place with the
same hash. -/
def copyAt (places : Places) (data : Array UInt8) (i room : Nat) : Nat × Nat :=
  let last := places.getD (hashAt data i) 0
  let offset := i + 1 - last
  if last = 0 || longest < offset then (0, 0) else (offset, matchLength data offset room i)

/-- Divides the bytes from `i` on; `literals` are those passed over since the last copy, in reverse
order.  A copy has at least `least` bytes, starts at least twelve bytes and stops at least five
bytes in front of the end. -/
def factorFrom (least : Nat) (data : Array UInt8) :
    (fuel i : Nat) → Places → (literals : Bytes) → Factoring
  | 0, _, _, literals => ⟨[], literals.reverse⟩
  | fuel + 1, i, places, literals =>
    if data.size ≤ i + 12 then ⟨[], literals.reverse ++ (data.toList.drop i)⟩
    else
      let (offset, n) := copyAt places data i (min longest (data.size - 5 - i))
      let places := places.setIfInBounds (hashAt data i) (i + 1)
      if least ≤ n then
        let f := factorFrom least data fuel (i + n) places []
        ⟨⟨literals.reverse, offset, n⟩ :: f.repeats, f.tail⟩
      else factorFrom least data fuel (i + 1) places (data.getD i 0 :: literals)

/-- Divides a byte string. -/
def factor (least : Nat) (b : Bytes) : Factoring :=
  factorFrom least b.toArray (b.length + 1) 0 (Array.replicate 1024 0) []

end Factoring
end ColumnStore
