/-
# Byte strings as texts

Each byte is two hexadecimal digits.

`ofHex?_toHex`: a byte string is read back from its text.
-/

import ColumnStore.Bytes.Basic
import ColumnStore.Text.Hex

namespace ColumnStore
namespace Bytes

/-- The digits of bytes. -/
def hexDigits (b : Bytes) : List Char :=
  b.flatMap fun x => [Text.hexChar (x.toNat / 16), Text.hexChar (x.toNat % 16)]

/-- The bytes with given digits, if every byte has two. -/
def ofHexDigits? : List Char → Option Bytes
  | [] => some []
  | a :: b :: rest => do
    let high ← Text.hexValue? a
    let low ← Text.hexValue? b
    (ofHexDigits? rest).map (UInt8.ofNat (16 * high + low) :: ·)
  | [_] => none

def toHex (b : Bytes) : String := String.ofList b.hexDigits

def ofHex? (s : String) : Option Bytes := ofHexDigits? s.toList

theorem ofHexDigits?_hexDigits (b : Bytes) : ofHexDigits? b.hexDigits = some b := by
  induction b with
  | nil => rfl
  | cons x rest ih =>
    have hx : x.toNat < 256 := x.toNat_lt
    have hd : 16 * (x.toNat / 16) + x.toNat % 16 = x.toNat := by omega
    simp only [hexDigits, List.flatMap_cons, List.cons_append, List.nil_append,
      ofHexDigits?] at ih ⊢
    rw [Text.hexValue?_hexChar (show x.toNat / 16 < 16 by omega),
      Text.hexValue?_hexChar (Nat.mod_lt _ (by decide)), ih]
    simp only [bind, Option.bind_some, Option.map_some, hd, UInt8.ofNat_toNat]

/-- **A byte string is read back from its text.** -/
theorem ofHex?_toHex (b : Bytes) : ofHex? b.toHex = some b := by
  simp [ofHex?, toHex, ofHexDigits?_hexDigits]

end Bytes
end ColumnStore
