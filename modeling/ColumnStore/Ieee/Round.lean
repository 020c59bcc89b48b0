/-
# Rounding into a binary format

`Format.round` gives the pattern nearest to `m · 2 ^ e`, and of two equally near ones the one with
an even last bit.  Widening a stored number and turning an integer into a number both go through
it.  `nearestInt` goes back: the integer nearest to a number, a half away from zero.
-/

import ColumnStore.Ieee.Format

namespace ColumnStore
namespace Ieee

/-- `m / 2 ^ k` rounded to the nearest integer, a half to the even neighbour. -/
def shiftRound (m k : Nat) : Nat :=
  let unit := 1 <<< k
  let floor := m / unit
  let twice := 2 * (m % unit)
  if twice < unit then floor
  else if unit < twice then floor + 1
  else floor + floor % 2

namespace Format

/-- The pattern nearest to the magnitude `m · 2 ^ e`; what rounds past the largest number is the
infinity. -/
def roundMagnitude (f : Format) (m : Nat) (e : Int) : Nat :=
  if m = 0 then 0
  else
    let place := max (e + Nat.log2 m - (f.fraction : Int)) f.leastExponent
    let significand :=
      if place ≤ e then m <<< (e - place).toNat else shiftRound m (place - e).toNat
    min ((place - f.leastExponent).toNat <<< f.fraction + significand) f.infinity

/-- The pattern nearest to `± m · 2 ^ e`. -/
def round (f : Format) (negative : Bool) (m : Nat) (e : Int) : Nat :=
  f.signed negative (f.roundMagnitude m e)

/-- The pattern nearest to an integer; zero has no sign. -/
def ofInt (f : Format) (n : Int) : Nat := f.round (n < 0) n.natAbs 0

/-- A pattern of the format `f` in the format `g`.  A NaN keeps its sign and its payload, moved to
the top of the fraction and made quiet. -/
def convert (f g : Format) (bits : Nat) : Nat :=
  let negative := f.isNegative bits
  if f.isNaN bits then
    let payload := (f.fractionField bits <<< g.fraction) >>> f.fraction
    g.signed negative (g.infinity + (payload ||| 1 <<< (g.fraction - 1)))
  else if f.isInfinite bits then g.signed negative g.infinity
  else
    let ⟨m, e⟩ := f.scaled bits
    g.round negative m e

/-- The integer nearest to a finite number, a half away from zero. -/
def nearestInt (f : Format) (bits : Nat) : Int :=
  let ⟨m, e⟩ := f.scaled bits
  let unit := 1 <<< (-e).toNat
  let n : Nat := ((2 * m) <<< e.toNat + unit) / (2 * unit)
  if f.isNegative bits then -(n : Int) else n

end Format

/-- A 32-bit pattern as the 64-bit pattern of the same number. -/
def widen (bits : UInt32) : UInt64 :=
  (Format.convert .single .double bits.toNat).toUInt64

/-- The 32-bit pattern nearest to an integer. -/
def singleOfInt (n : Int) : UInt32 := (Format.ofInt .single n).toUInt32

/-- The 64-bit pattern nearest to an integer. -/
def doubleOfInt (n : Int) : UInt64 := (Format.ofInt .double n).toUInt64

/-- Halves on both sides of zero. -/
example : Format.double.nearestInt (Format.double.round false 5 (-1)) = 3 ∧
    Format.double.nearestInt (Format.double.round true 5 (-1)) = -3 := by decide +kernel

/-- A quarter over is dropped, a half goes to the even neighbour. -/
example : shiftRound 9 2 = 2 ∧ shiftRound 10 2 = 2 ∧ shiftRound 14 2 = 4 := by decide

end Ieee
end ColumnStore
