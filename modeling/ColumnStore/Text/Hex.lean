/-
# Hexadecimal digits

Digits are written in small letters and read in both cases.

`hexValue?_hexChar`: a digit is read back.
-/

namespace ColumnStore
namespace Text

/-- The digit for a number below 16. -/
def hexChar (d : Nat) : Char := "0123456789abcdef".toList.getD d '0'

/-- The number that a digit stands for. -/
def hexValue? (c : Char) : Option Nat :=
  if c.isDigit then some (c.toNat - 48)
  else if 'a' ≤ c && c ≤ 'f' then some (c.toNat - 87)
  else if 'A' ≤ c && c ≤ 'F' then some (c.toNat - 55)
  else none

/-- **A digit is read back.** -/
theorem hexValue?_hexChar {d : Nat} (h : d < 16) : hexValue? (hexChar d) = some d := by
  revert d
  decide

/-- The low `width` digits of a number, the highest first. -/
def hexDigits : (width n : Nat) → List Char
  | 0, _ => []
  | width + 1, n => hexDigits width (n / 16) ++ [hexChar (n % 16)]

/-- The low `width` digits of a number as a text. -/
def toHex (width n : Nat) : String := String.ofList (hexDigits width n)

/-- The number of a text of digits. -/
def ofHex? (s : String) : Option Nat :=
  s.toList.foldlM (fun n c => (hexValue? c).map (16 * n + ·)) 0

example : toHex 4 0x1f = "001f" ∧ ofHex? "001F" = some 0x1f ∧ ofHex? "g" = none := by decide +kernel

end Text
end ColumnStore
