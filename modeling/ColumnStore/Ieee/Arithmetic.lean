/-
# Products and quotients in a binary format

`Format.mul` and `Format.div` work on the magnitudes of finite numbers.  Each result is the exact
one rounded once.
-/

import ColumnStore.Ieee.Round

namespace ColumnStore
namespace Ieee
namespace Format

/-- The magnitude nearest to `num / den · 2 ^ e`.  The quotient is computed far enough for the
rounding to see all the places it needs; the last place stands for the rest. -/
def roundQuotient (f : Format) (num den : Nat) (e : Int) : Nat :=
  let shift := f.fraction + 4 + Nat.log2 den
  let num := num <<< shift
  let rest := if num % den = 0 then 0 else 1
  f.roundMagnitude (2 * (num / den) + rest) (e - (shift + 1 : Nat))

/-- The magnitude nearest to a product. -/
def mul (f : Format) (a b : Nat) : Nat :=
  let x := f.scaled a
  let y := f.scaled b
  f.roundMagnitude (x.significand * y.significand) (x.place + y.place)

/-- The magnitude nearest to a quotient. -/
def div (f : Format) (a b : Nat) : Nat :=
  let x := f.scaled a
  let y := f.scaled b
  f.roundQuotient x.significand y.significand (x.place - y.place)

/-- One tenth, a third of the least number above zero, and a product past the largest number. -/
example : double.div (double.ofInt 1) (double.ofInt 10) = 0x3FB999999999999A ∧
    double.div 1 (double.ofInt 3) = 0 ∧
    double.isInfinite (double.mul 0x7FEFFFFFFFFFFFFF (double.ofInt 2)) := by decide +kernel

end Format
end Ieee
end ColumnStore
