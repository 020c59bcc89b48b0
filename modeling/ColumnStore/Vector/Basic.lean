/-
# Vectors of values

A vector has a fixed number of slots of one type.  A vector of lists keeps the items of all its
lists one behind the other in a vector of items, and in each slot a window into it.  Writing a list
adds its items at the end of the part that is filled; the items of a list that is overwritten stay
behind, unused.

What a slot held is kept under a `NULL`, and is there again when only the validity is changed.
-/

import ColumnStore.Attempt
import ColumnStore.Value.Scalar
import ColumnStore.Vector.Selection
import ColumnStore.Vector.Validity

namespace ColumnStore

/-- The items of a list: `length` items from `start` on. -/
structure Window where
  start : Nat
  length : Nat
  deriving DecidableEq, Repr, Inhabited

/-- Slots of one type. -/
inductive ValueVector where
  /-- Slots that hold values that are no lists. -/
  | flat (type : ColumnType) (validity : Validity) (slots : Array Scalar)
  /-- Slots that hold lists, with the number of items in use. -/
  | list (validity : Validity) (windows : Array Window) (filled : Nat) (items : ValueVector)
  deriving Inhabited, Repr

namespace ValueVector

def type : ValueVector → ColumnType
  | .flat t _ _ => t
  | .list _ _ _ items => .list items.type

def validity : ValueVector → Validity
  | .flat _ v _ => v
  | .list v _ _ _ => v

def withValidity : ValueVector → Validity → ValueVector
  | .flat t _ slots, v => .flat t v slots
  | .list _ windows filled items, v => .list v windows filled items

/-- The number of slots. -/
def capacity : ValueVector → Nat
  | .flat _ _ slots => slots.size
  | .list _ windows _ _ => windows.size

/-- A vector of blank slots, all valid. -/
def new : ColumnType → Nat → ValueVector
  | .list item, n => .list (.new n) (Array.replicate n ⟨0, 0⟩) 0 (new item n)
  | t, n => .flat t (.new n) (Array.replicate n (Scalar.blank t))

/-- The bytes of a slot of a vector of a type; text and the items of lists lie elsewhere. -/
def slotBytes : ColumnType → Nat
  | .boolean | .tinyInt => 1
  | .smallInt => 2
  | .integer | .real => 4
  | .bigInt | .uBigInt | .double => 8
  | .varchar => 24
  | .list _ => 16

/-- Whether there can be so many slots of a type. -/
def hasRoom (t : ColumnType) (n : Nat) : Bool := slotBytes t * n ≤ Bytes.longest

/-- Whether there can be a vector of so many slots, the slots for items included. -/
def canBeNew : ColumnType → Nat → Bool
  | .list item, n => hasRoom (.list item) n && canBeNew item n
  | t, n => hasRoom t n

/-- A vector of blank slots, none when there cannot be so many. -/
def new? (t : ColumnType) (n : Nat) : Option ValueVector :=
  if canBeNew t n then some (new t n) else none

/-- The window of a slot of a vector of lists; the inner option is none for other vectors. -/
def window? : ValueVector → Nat → Option (Option Window)
  | .flat .., _ => some none
  | .list _ windows _ _, i => windows[i]?.map some

/-- The vector of the items of a vector of lists. -/
def items? : ValueVector → Option ValueVector
  | .flat .. => none
  | .list _ _ _ items => some items

/-- What a slot holds under its validity, none for a slot that is not there. -/
def raw? : ValueVector → Nat → Option Scalar
  | .flat _ _ slots, i => slots[i]?
  | .list _ windows _ items, i =>
    windows[i]?.bind fun w =>
      ((List.range w.length).mapM fun k =>
        match items.validity.get? (w.start + k) with
        | none => none
        | some false => some Scalar.null
        | some true => items.raw? (w.start + k)).map Scalar.list

/-- The value of a slot, none for a slot that is not there. -/
def get? (v : ValueVector) (i : Nat) : Option Scalar :=
  match v.validity.get? i with
  | none => none
  | some false => some .null
  | some true => v.raw? i

/-- No slot from here on has a value. -/
def reach (v : ValueVector) : Nat := max v.capacity (v.validity.marks.elim 0 (·.size))

/-- The values of the first `n` slots. -/
def firstValues? (v : ValueVector) (n : Nat) : Option (List Scalar) :=
  if v.reach < n then none else (List.range n).mapM v.get?

/-- Changes the number of slots; new slots are blank and valid.  Items of lists stay as they are. -/
def resize : ValueVector → Nat → ValueVector
  | .flat t v slots, n =>
    .flat t (v.resize n) (slots.take n ++ Array.replicate (n - slots.size) (Scalar.blank t))
  | .list v windows filled items, n =>
    .list (v.resize n) (windows.take n ++ Array.replicate (n - windows.size) ⟨0, 0⟩) filled items

/-- Changes the number of slots, if there can be so many. -/
def resize? (v : ValueVector) (n : Nat) : Option ValueVector :=
  if hasRoom v.type n then some (v.resize n) else none

/-- Every slot valid again, text emptied and the items of lists given free; numbers and the windows
of lists stay. -/
def reset : ValueVector → ValueVector
  | .flat .varchar v slots => .flat .varchar v.reset (slots.map fun _ => .varchar "")
  | .flat t v slots => .flat t v.reset slots
  | .list v windows _ items => .list v.reset windows 0 items.reset

/-- Marks a slot `NULL` and keeps what it holds, none for a slot that has no mark. -/
def setNull? (v : ValueVector) (i : Nat) : Option ValueVector :=
  (v.validity.setNull? i).map v.withValidity

/-- The number of slots that makes room for `needed` ones: at least twice as many unless there are
enough. -/
def grown (v : ValueVector) (needed : Nat) : Nat :=
  if v.capacity < needed then max needed (v.capacity * 2) else v.capacity

/-- Room for `needed` slots; nothing changes when there are enough. -/
def grow (v : ValueVector) (needed : Nat) : ValueVector :=
  if v.capacity < needed then v.resize (v.grown needed) else v

mutual

/-- Writes a value into a slot.  A list that is refused at one of its items leaves the items in
front of that one behind, in the unused part. -/
def set (v : ValueVector) (i : Nat) (x : Scalar) : Attempt VectorError ValueVector Unit :=
  if v.capacity ≤ i then (.error (.indexOutOfBounds i v.capacity), v)
  else
    match x with
    | .null =>
      match v.setNull? i with
      | some v' => (.ok (), v')
      | none => (.error .outOfRange, v)
    | .list xs =>
      match v with
      | .list validity windows filled items =>
        match setAll (items.grow (filled + xs.length)) filled xs with
        | (.error e, items') => (.error e, .list validity windows filled items')
        | (.ok (), items') =>
          match validity.setValid? i with
          | some validity' =>
            (.ok (), .list validity' (windows.setIfInBounds i ⟨filled, xs.length⟩)
              (filled + xs.length) items')
          | none => (.error .outOfRange, v)
      | _ => (.error (.typeMismatch v.type x.render), v)
    | x =>
      match v with
      | .flat t validity slots =>
        if x.fits t then
          match validity.setValid? i with
          | some validity' => (.ok (), .flat t validity' (slots.setIfInBounds i x))
          | none => (.error .outOfRange, .flat t validity slots)
        else (.error (.typeMismatch t x.render), .flat t validity slots)
      | v => (.error (.typeMismatch v.type x.render), v)

/-- Writes values into the slots from `start` on, up to the first that is refused. -/
def setAll (v : ValueVector) (start : Nat) : List Scalar → Attempt VectorError ValueVector Unit
  | [] => (.ok (), v)
  | x :: rest =>
    match set v start x with
    | (.ok (), v') => setAll v' (start + 1) rest
    | failed => failed

end

/-- A vector of the given values. -/
def ofValues (t : ColumnType) (values : List Scalar) : Except VectorError ValueVector :=
  match setAll (new t values.length) 0 values with
  | (.ok (), v) => .ok v
  | (.error e, _) => .error e

/-- Writes the value of a slot of another vector into a slot. -/
def copySlot (v : ValueVector) (i : Nat) (source : ValueVector) (j : Nat) :
    Attempt VectorError ValueVector Unit :=
  if v.capacity ≤ i then (.error (.indexOutOfBounds i v.capacity), v)
  else
    match source.get? j with
    | none => (.error .outOfRange, v)
    | some x => v.set i x

/-- Writes the rows of another vector that a selection lists into the slots from `start` on, up to
the first that is refused. -/
def copyRows (v : ValueVector) (start : Nat) (source : ValueVector) :
    Selection → Attempt VectorError ValueVector Unit
  | [] => (.ok (), v)
  | row :: rest =>
    match v.copySlot start source row with
    | (.ok (), v') => v'.copyRows (start + 1) source rest
    | failed => failed

/-- Adds the selected rows of a vector of the same type behind the first `length` slots, growing
when there are too few slots, and gives the new length. -/
def append (v : ValueVector) (length : Nat) (source : ValueVector) (rows : Selection) :
    Attempt VectorError ValueVector Nat :=
  if source.type ≠ v.type then (.error (.typeMismatch v.type source.type.render), v)
  else
    match rows.verify source.capacity with
    | .error e => (.error e, v)
    | .ok () =>
      let needed := length + rows.length
      if UInt64.size ≤ needed || !hasRoom v.type (v.grown needed) then (.error .outOfRange, v)
      else
        match (v.grow needed).copyRows length source rows with
        | (.ok (), v') => (.ok needed, v')
        | (.error e, v') => (.error e, v')

end ValueVector
end ColumnStore
