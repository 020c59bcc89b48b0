/-
# Blank characters at the ends of a name

The characters with the Unicode property `White_Space`, and the removal of them at both ends of a
text.  Names of types, operators and compression schemes are read without regard to them.

`isBlank_of_isWhitespace`: every character of the narrower ASCII class is blank.
-/

namespace ColumnStore
namespace Text

/-- The ranges of code points with the property `White_Space`, both ends included. -/
def blankRanges : List (Nat × Nat) :=
  [(0x09, 0x0D), (0x20, 0x20), (0x85, 0x85), (0xA0, 0xA0), (0x1680, 0x1680), (0x2000, 0x200A),
    (0x2028, 0x2029), (0x202F, 0x202F), (0x205F, 0x205F), (0x3000, 0x3000)]

/-- A character is blank when its code point lies in one of `blankRanges`. -/
def isBlank (c : Char) : Bool :=
  blankRanges.any fun (low, high) => low ≤ c.toNat && c.toNat ≤ high

/-- **Every ASCII white space is blank.** -/
theorem isBlank_of_isWhitespace {c : Char} (h : c.isWhitespace = true) : isBlank c = true := by
  simp only [Char.isWhitespace, Bool.or_eq_true, decide_eq_true_eq] at h
  rcases h with ((rfl | rfl) | rfl) | rfl <;> decide

/-- A text without the blank characters at its two ends. -/
def trim (s : String) : String :=
  let body := s.toList.dropWhile isBlank
  String.ofList (body.reverse.dropWhile isBlank).reverse

end Text
end ColumnStore
