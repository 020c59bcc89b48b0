/-
# Integers in texts

Decimal digits behind an optional sign, and nothing else.
-/

namespace ColumnStore
namespace Text

/-- The number of decimal digits; at least one must be there. -/
def digits? (cs : List Char) : Option Nat :=
  if cs.isEmpty || !cs.all Char.isDigit then none
  else some (cs.foldl (fun n c => 10 * n + (c.toNat - 48)) 0)

/-- Reads a number below a bound, behind an optional plus sign. -/
def natBelow? (bound : Nat) (s : String) : Option Nat := do
  let n ← match s.toList with
    | '+' :: cs => digits? cs
    | cs => digits? cs
  if n < bound then some n else none

/-- Reads a number from `-bound` up to, but not including, `bound`. -/
def intWithin? (bound : Nat) (s : String) : Option Int := do
  let n : Int ← match s.toList with
    | '-' :: cs => (digits? cs).map fun n => -(n : Int)
    | '+' :: cs => (digits? cs).map Int.ofNat
    | cs => (digits? cs).map Int.ofNat
  if -(bound : Int) ≤ n ∧ n < bound then some n else none

/-- A sign alone is no number, and the least number is farther from zero than the greatest. -/
example : natBelow? 9 "+8" = some 8 ∧ natBelow? 9 "+" = none ∧ intWithin? 8 "-8" = some (-8) ∧
    intWithin? 8 "8" = none := by decide +kernel

end Text
end ColumnStore
