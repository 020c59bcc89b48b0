/-
# Natural logarithms in fixed point

`log num den` is the natural logarithm of `num / den ≥ 1` in units of `2 ^ -96`.  A number is
halved until it lies in `[1, 2)`; there `ln r = 2 · (t + t ^ 3 / 3 + t ^ 5 / 5 + …)` for
`t = (r - 1) / (r + 1) ≤ 1 / 3`, of which 40 terms are more than the unit can tell.
-/

namespace ColumnStore
namespace Logarithm

/-- The fractional bits kept. -/
def precision : Nat := 96

/-- The sum `t + t ^ 3 / 3 + …` of `terms` terms, from the power `p` of `t` with exponent `k` on;
`t` and `p` are in units of `2 ^ -96`. -/
def series (t : Nat) : (terms p k : Nat) → Nat
  | 0, _, _ => 0
  | terms + 1, p, k => p / k + series t terms (((p * t) >>> precision * t) >>> precision) (k + 2)

/-- The logarithm of a number in `[1, 2)`. -/
def logUnit (num den : Nat) : Nat :=
  let t := (num - den) <<< precision / (num + den)
  2 * series t 40 t 1

/-- The natural logarithm of `num / den`, which is at least one. -/
def log (num den : Nat) : Nat :=
  let halvings := Nat.log2 (num / den)
  halvings * logUnit 2 1 + logUnit num (den <<< halvings)

/-- `scale` times the logarithm of `num / den`, rounded to the nearest integer. -/
def scaledLog (scale num den : Nat) : Nat :=
  (2 * scale * log num den + 1 <<< precision) >>> (precision + 1)

/-- The logarithm of two to six places. -/
example : scaledLog 1000000 2 1 = 693147 := by decide +kernel

end Logarithm
end ColumnStore
