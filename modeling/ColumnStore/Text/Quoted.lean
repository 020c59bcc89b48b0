/-
# Quoted text

Text between double quotes, as descriptions show names: quotes and backslashes behind a backslash,
line ends and tabs by their letters, and other characters that cannot be seen by their number.
-/

import ColumnStore.Text.Unseen

namespace ColumnStore
namespace Text

/-- A character between quotes. -/
def quoteChar (c : Char) : String :=
  match c with
  | '\x00' => "\\0"
  | '\t' => "\\t"
  | '\n' => "\\n"
  | '\r' => "\\r"
  | '"' => "\\\""
  | '\\' => "\\\\"
  | c =>
    if isUnseen c then
      "\\u\x7b" ++ String.ofList (Nat.toDigits 16 c.toNat) ++ "\x7d"
    else String.singleton c

/-- A text between quotes. -/
def quote (s : String) : String := "\"" ++ String.join (s.toList.map quoteChar) ++ "\""

example : quote "a\"b\n" = "\"a\\\"b\\n\"" := by decide +kernel

end Text
end ColumnStore
