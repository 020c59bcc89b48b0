/-
# Binary floating point, read off the bits

A number is kept as the bit pattern of its interchange format, so that what is stored is exactly
what was given, sign of zero and payload of a NaN included.

| format | fraction bits | exponent bits | width |
| --- | ---: | ---: | ---: |
| `single` | 23 | 8 | 32 |
| `double` | 52 | 11 | 64 |

`key` places every pattern on one line of integers: the two zeros share `0`, a NaN lies outside the
infinities on the side of its sign.
-/

namespace ColumnStore
namespace Ieee

/-- An interchange format: how many bits hold the fraction and how many the exponent. -/
structure Format where
  fraction : Nat
  exponent : Nat
  deriving DecidableEq, Repr

namespace Format

/-- The 32-bit format. -/
def single : Format := ⟨23, 8⟩

/-- The 64-bit format. -/
def double : Format := ⟨52, 11⟩

/-- The largest exponent field, which infinities and NaNs carry. -/
def topField (f : Format) : Nat := (1 <<< f.exponent) - 1

/-- The pattern of positive infinity. -/
def infinity (f : Format) : Nat := f.topField <<< f.fraction

/-- The place of the sign bit. -/
def signWeight (f : Format) : Nat := 1 <<< (f.fraction + f.exponent)

/-- The sign bit is set. -/
def isNegative (f : Format) (bits : Nat) : Bool := f.signWeight ≤ bits

/-- The pattern without its sign. -/
def magnitude (f : Format) (bits : Nat) : Nat := bits % f.signWeight

/-- The pattern of a magnitude under a sign. -/
def signed (f : Format) (negative : Bool) (magnitude : Nat) : Nat :=
  if negative then f.signWeight + magnitude else magnitude

def isNaN (f : Format) (bits : Nat) : Bool := f.infinity < f.magnitude bits

def isInfinite (f : Format) (bits : Nat) : Bool := f.magnitude bits = f.infinity

/-- The stored exponent. -/
def exponentField (f : Format) (bits : Nat) : Nat := f.magnitude bits >>> f.fraction

/-- The stored fraction. -/
def fractionField (f : Format) (bits : Nat) : Nat := bits % (1 <<< f.fraction)

/-- The exponent of the last place of the numbers nearest to zero. -/
def leastExponent (f : Format) : Int :=
  2 - (1 <<< (f.exponent - 1) : Nat) - (f.fraction : Int)

/-- A finite magnitude as `significand · 2 ^ place`. -/
structure Scaled where
  significand : Nat
  place : Int
  deriving DecidableEq, Repr

/-- The value of a finite pattern, its sign left out: a normal number has a leading one above its
fraction, a number with exponent field `0` has none. -/
def scaled (f : Format) (bits : Nat) : Scaled :=
  let field := f.exponentField bits
  if field = 0 then ⟨f.fractionField bits, f.leastExponent⟩
  else ⟨(1 <<< f.fraction) + f.fractionField bits, f.leastExponent + (field - 1 : Nat)⟩

/-- The place of a pattern in the total order in which the two zeros are equal. -/
def key (f : Format) (bits : Nat) : Int :=
  if f.isNegative bits then -(f.magnitude bits : Int) else f.magnitude bits

/-- Numbers below the infinities in order of value, NaNs beyond them, and both zeros the same. -/
def order (f : Format) (a b : Nat) : Ordering := compare (f.key a) (f.key b)

end Format
end Ieee
end ColumnStore
