/-
# Text in UTF-8

The bytes of a text, and back.  Bytes that are no text are refused with the place of the first
character that is malformed: the length of the text in front of it, and how many bytes of it were
read before it went wrong, or that the bytes ended inside it.

A character of more than one byte starts with a lead byte, which fixes how many continuation bytes
follow and the range of the first of them.
-/

import ColumnStore.Bytes.Basic

namespace ColumnStore
namespace Utf8

/-- Where bytes stop being a text. -/
structure Fault where
  /-- The length of the longest first part that is a text. -/
  validLength : Nat
  /-- The bytes of the malformed character, none when the bytes end inside it. -/
  badLength : Option Nat
  deriving DecidableEq, Repr

/-- The continuation bytes that follow a lead byte, and the range of the first of them. -/
def lead? (b : UInt8) : Option (Nat × Nat × Nat) :=
  let n := b.toNat
  if 0xC2 ≤ n && n ≤ 0xDF then some (1, 0x80, 0xBF)
  else if n = 0xE0 then some (2, 0xA0, 0xBF)
  else if n = 0xED then some (2, 0x80, 0x9F)
  else if 0xE1 ≤ n && n ≤ 0xEF then some (2, 0x80, 0xBF)
  else if n = 0xF0 then some (3, 0x90, 0xBF)
  else if 0xF1 ≤ n && n ≤ 0xF3 then some (3, 0x80, 0xBF)
  else if n = 0xF4 then some (3, 0x80, 0x8F)
  else none

/-- Where the reader stands: between characters, or inside one of which `read` bytes were read, with
`owed + 1` more to come and the next in the given range. -/
inductive State where
  | between
  | inside (read owed low high : Nat)

/-- Finds the first malformed character; `done` is the length of the text read so far. -/
def faultFrom? (done : Nat) : State → Bytes → Option Fault
  | .between, [] => none
  | .inside .., [] => some ⟨done, none⟩
  | .between, b :: rest =>
    if b.toNat < 0x80 then faultFrom? (done + 1) .between rest
    else
      match lead? b with
      | some (owed + 1, low, high) => faultFrom? done (.inside 1 owed low high) rest
      | _ => some ⟨done, some 1⟩
  | .inside read owed low high, b :: rest =>
    if low ≤ b.toNat && b.toNat ≤ high then
      match owed with
      | 0 => faultFrom? (done + read + 1) .between rest
      | owed + 1 => faultFrom? done (.inside (read + 1) owed 0x80 0xBF) rest
    else some ⟨done, some read⟩

/-- The first malformed character of bytes that are no text. -/
def fault? (b : Bytes) : Option Fault := faultFrom? 0 .between b

def Fault.message (f : Fault) : String :=
  match f.badLength with
  | some n =>
    "invalid utf-8 sequence of " ++ toString n ++ " bytes from index " ++ toString f.validLength
  | none => "incomplete utf-8 byte sequence from index " ++ toString f.validLength

/-- The text of UTF-8 bytes, or where they stop being one. -/
def decode (b : Bytes) : Except Fault String :=
  match String.fromUTF8? ⟨b.toArray⟩ with
  | some s => .ok s
  | none => .error ((fault? b).getD ⟨0, none⟩)

/-- **Text is read back from its bytes.** -/
theorem decode_ofString (s : String) : decode (Bytes.ofString s) = .ok s := by
  have h : (⟨(Bytes.ofString s).toArray⟩ : ByteArray) = s.toByteArray := by
    simp only [Bytes.ofString, Array.toArray_toList]; rfl
  simp only [decode, h, String.fromUTF8?, dif_pos s.isValidUTF8]
  rfl

end Utf8
end ColumnStore
