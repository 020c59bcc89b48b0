/-
# Which slots hold a value

A mask says for each slot of a vector whether it is valid or `NULL`.  As long as nothing was marked
`NULL` no marks are kept and every slot is valid.  Marks come in blocks of 64 slots, at least one
block, so a few slots past the capacity have marks too: a mark made there, or left there when the
mask shrank, is still there when the mask grows again within its last block.
-/

import ColumnStore.Bytes.Basic

namespace ColumnStore

/-- The validity of the slots of a vector; a mark is `true` for a valid slot. -/
structure Validity where
  capacity : Nat
  marks : Option (Array Bool) := none
  deriving DecidableEq, Repr, Inhabited

namespace Validity

/-- A mask with every slot valid. -/
def new (capacity : Nat) : Validity := ⟨capacity, none⟩

/-- The number of marks kept for a capacity: whole blocks of 64, at least one. -/
def markCount (capacity : Nat) : Nat := 64 * max 1 ((capacity + 63) / 64)

/-- No marks are kept.  Marks that are all `true` do not count. -/
def allValid (v : Validity) : Bool := v.marks.isNone

/-- Whether a slot is valid, none for a slot that has no mark. -/
def get? (v : Validity) (i : Nat) : Option Bool :=
  match v.marks with
  | none => some true
  | some marks => marks[i]?

/-- Marks a slot `NULL`, none for a slot that has no mark. -/
def setNull? (v : Validity) (i : Nat) : Option Validity :=
  let marks := v.marks.getD (Array.replicate (markCount v.capacity) true)
  if i < marks.size then some { v with marks := some (marks.setIfInBounds i false) } else none

/-- Marks a slot valid, none for a slot that has no mark. -/
def setValid? (v : Validity) (i : Nat) : Option Validity :=
  match v.marks with
  | none => some v
  | some marks =>
    if i < marks.size then some { v with marks := some (marks.setIfInBounds i true) } else none

/-- Marks a slot valid or `NULL`. -/
def set? (v : Validity) (i : Nat) (valid : Bool) : Option Validity :=
  if valid then v.setValid? i else v.setNull? i

/-- The marks of the first `n` slots, none when one of them has no mark. -/
def firstMarks? (v : Validity) (n : Nat) : Option (List Bool) :=
  match v.marks with
  | none => some (List.replicate n true)
  | some marks => if n ≤ marks.size then some (marks.toList.take n) else none

/-- The number of `NULL` slots among the first `n`. -/
def countNull? (v : Validity) (n : Nat) : Option Nat :=
  if v.allValid then some 0 else (v.firstMarks? n).map (·.count false)

/-- Every slot valid again. -/
def reset (v : Validity) : Validity := { v with marks := none }

/-- Changes the capacity, dropping or adding whole blocks of marks. -/
def resize (v : Validity) (capacity : Nat) : Validity :=
  let n := markCount capacity
  { capacity
    marks := v.marks.map fun marks => marks.take n ++ Array.replicate (n - marks.size) true }

/-- Eight flags in a byte, the first in the lowest bit. -/
def packByte (flags : List Bool) : UInt8 :=
  UInt8.ofNat (flags.foldr (fun flag acc => 2 * acc + flag.toNat) 0)

/-- Flags in bytes, eight in each, the last one filled up with zero bits. -/
def packBits : List Bool → Bytes
  | [] => []
  | a :: rest => packByte (a :: rest.take 7) :: packBits (rest.drop 7)
termination_by flags => flags.length

/-- The bit of a packed list of flags. -/
def bit? (bits : Bytes) (i : Nat) : Option Bool :=
  bits[i / 8]?.map fun byte => byte.toNat.testBit (i % 8)

/-- The first `n` slots as packed flags in which a set bit stands for `NULL`. -/
def toNullBitmap? (v : Validity) (n : Nat) : Option Bytes :=
  (v.firstMarks? n).map fun marks => packBits (marks.map (!·))

/-- The mask of `n` packed `NULL` flags; marks are kept only if one is set. -/
def ofNullBitmap? (bits : Bytes) (n capacity : Nat) : Option Validity :=
  if 8 * bits.length < n then none
  else
    (List.range n).foldlM (fun v i => do
      let isNull ← bit? bits i
      if isNull then v.setNull? i else some v) (new (max capacity n))

end Validity
end ColumnStore
