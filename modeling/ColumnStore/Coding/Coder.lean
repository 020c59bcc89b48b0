/-
# Coders

A coder writes values as bytes and reads them back from the front of a byte string.  Numbers have a
fixed number of bytes, the lowest first; lengths have eight bytes; a flag and the presence of an
optional value are one byte, 0 or 1; records are their fields one after the other.
-/

import ColumnStore.Bytes.Utf8

namespace ColumnStore

/-- A writer, and a reader that gives the bytes behind what it read. -/
structure Coder (α : Type) where
  encode : α → Bytes
  decode : Bytes → Option (α × Bytes)

namespace Coder

variable {α β : Type}

/-- A coder reads back a value that it wrote, whatever follows. -/
def ReadsBack (c : Coder α) (a : α) : Prop := ∀ rest, c.decode (c.encode a ++ rest) = some (a, rest)

/-- What a coder reads, it would write in the same way. -/
def Canonical (c : Coder α) : Prop :=
  ∀ b a rest, c.decode b = some (a, rest) → b = c.encode a ++ rest

/-- Numbers of `width` bytes. -/
def nat (width : Nat) : Coder Nat where
  encode := Bytes.ofNat width
  decode b := (Bytes.split? width b).map fun (head, rest) => (Bytes.toNat head, rest)

/-- Lengths and other 64-bit numbers. -/
def word : Coder Nat := nat 8

/-- Flags. -/
def bool : Coder Bool where
  encode v := [if v then 1 else 0]
  decode
    | 0 :: rest => some (false, rest)
    | 1 :: rest => some (true, rest)
    | _ => none

/-- Byte strings of known length. -/
def bytes (n : Nat) : Coder Bytes where
  encode v := v
  decode := Bytes.split? n

/-- One value behind the other. -/
def pair (c : Coder α) (d : Coder β) : Coder (α × β) where
  encode v := c.encode v.1 ++ d.encode v.2
  decode b := do
    let (x, b) ← c.decode b
    let (y, b) ← d.decode b
    some ((x, y), b)

/-- Values in another form. -/
def map (c : Coder α) (pack : α → β) (unpack : β → α) : Coder β where
  encode v := c.encode (unpack v)
  decode b := (c.decode b).map fun (x, rest) => (pack x, rest)

/-- Values that may be absent. -/
def option (c : Coder α) : Coder (Option α) where
  encode
    | none => [0]
    | some v => 1 :: c.encode v
  decode
    | 0 :: rest => some (none, rest)
    | 1 :: rest => (c.decode rest).map fun (v, rest) => (some v, rest)
    | _ => none

/-- Text behind its length in bytes. -/
def text : Coder String where
  encode s := word.encode (Bytes.ofString s).length ++ Bytes.ofString s
  decode b := do
    let (n, b) ← word.decode b
    let (head, b) ← Bytes.split? n b
    match Utf8.decode head with
    | .ok s => some (s, b)
    | .error _ => none

/-- Reads a number of values. -/
def decodeMany (read : Bytes → Option (α × Bytes)) : (count : Nat) → Bytes → Option (List α × Bytes)
  | 0, b => some ([], b)
  | count + 1, b => do
    let (v, b) ← read b
    let (vs, b) ← decodeMany read count b
    some (v :: vs, b)

/-- Values behind their number. -/
def list (c : Coder α) : Coder (List α) where
  encode vs := word.encode vs.length ++ vs.flatMap c.encode
  decode b := do
    let (n, b) ← word.decode b
    decodeMany c.decode n b

/-- **Numbers that fit are read back.** -/
theorem nat_readsBack {width n : Nat} (h : n < Bytes.bound width) : (nat width).ReadsBack n := by
  intro rest
  have := Bytes.split?_append (Bytes.ofNat width n) rest
  rw [Bytes.length_ofNat] at this
  simp [nat, this, Bytes.toNat_ofNat, Nat.mod_eq_of_lt h]

/-- **A pair is read back when its parts are.** -/
theorem pair_readsBack {c : Coder α} {d : Coder β} {a : α} {b : β} (ha : c.ReadsBack a)
    (hb : d.ReadsBack b) : (pair c d).ReadsBack (a, b) := by
  intro rest
  simp [pair, List.append_assoc, ha _, hb _]

end Coder
end ColumnStore
