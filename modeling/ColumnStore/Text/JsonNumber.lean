/-
# Numbers in JSON texts

A number is kept with its digits as they are written.  An integer of 64 bits is read exactly.  Any
other number is read in two steps: the digits that fit into 64 bits make up an integer, which is
rounded, and a power of ten, by which that is multiplied or divided and rounded again.  So the last
place may differ from that of the nearest number.
-/

import ColumnStore.Ieee.Arithmetic

namespace ColumnStore

/-- A number as it is written. -/
structure JsonNumber where
  negative : Bool
  /-- The digits in front of the point. -/
  whole : List Nat
  /-- The digits behind the point, none when there is no point. -/
  fraction : List Nat
  exponent : Option Int
  deriving DecidableEq, Repr

namespace JsonNumber

/-- The number of decimal digits. -/
def ofDigits (ds : List Nat) : Nat := ds.foldl (fun n d => 10 * n + d) 0

/-- The number without a sign, if it is written as an integer. -/
def integer? (n : JsonNumber) : Option Nat :=
  if n.fraction.isEmpty && n.exponent.isNone then some (ofDigits n.whole) else none

/-- An integer that is not negative and below a bound. -/
def natBelow? (bound : Nat) (n : JsonNumber) : Option Nat := do
  let m ← n.integer?
  if !n.negative && m < bound then some m else none

/-- An integer from `-bound` up to, but not including, `bound`; zero has no sign. -/
def intWithin? (bound : Nat) (n : JsonNumber) : Option Int := do
  let m ← n.integer?
  if n.negative then if m ≠ 0 && m ≤ bound then some (-(m : Int)) else none
  else if m < bound then some m else none

/-- Adds digits to a number as long as it has 64 bits, and says how many are left. -/
def gather (n : Nat) : List Nat → Nat × Nat
  | [] => (n, 0)
  | d :: ds => if 10 * n + d < UInt64.size then gather (10 * n + d) ds else (n, ds.length + 1)

/-- The digits that fit into 64 bits as an integer, and the power of ten that belongs to it without
the exponent.  Behind digits in front of the point that do not fit, those behind it are still added
as long as they do. -/
def decimal (n : JsonNumber) : Nat × Int :=
  let (m, skipped) := gather 0 n.whole
  let (m, dropped) := gather m n.fraction
  (m, skipped + dropped - n.fraction.length)

/-- The exponent of the largest power of ten below the infinity. -/
def largestPower : Nat := 308

/-- The exponents that are read are not farther from zero than this. -/
def largestExponent : Nat := 0x7FFFFFFF

def powerOfTen (k : Nat) : Nat := Ieee.Format.double.roundMagnitude (Nat.pow 10 k) 0

/-- A magnitude times a power of ten; none past the largest number. -/
def scaleUp? (a k : Nat) : Option Nat :=
  if a = 0 then some 0
  else if largestPower < k then none
  else
    let product := Ieee.Format.double.mul a (powerOfTen k)
    if Ieee.Format.double.isInfinite product then none else some product

/-- A magnitude divided by a power of ten, in steps that a number can hold. -/
def scaleDown (a k : Nat) : Nat :=
  if a = 0 then 0
  else if k ≤ largestPower then Ieee.Format.double.div a (powerOfTen k)
  else scaleDown (Ieee.Format.double.div a (powerOfTen largestPower)) (k - largestPower)
termination_by k
decreasing_by simp only [largestPower] at *; omega

/-- The magnitude of a number as a pattern of 64 bits; none past the largest number.  With an
exponent that is too long to be read a number is zero or past it. -/
def magnitude? (n : JsonNumber) : Option Nat :=
  let (m, power) := n.decimal
  let exponent := n.exponent.getD 0
  if largestExponent < exponent.natAbs then
    if m ≠ 0 && 0 < exponent then none else some 0
  else
    let a := Ieee.Format.double.roundMagnitude m 0
    let power := power + exponent
    if 0 ≤ power then scaleUp? a power.toNat else some (scaleDown a (-power).toNat)

/-- A number as a pattern of 64 bits; none past the largest number. -/
def toDouble? (n : JsonNumber) : Option UInt64 :=
  n.magnitude?.map fun a => (Ieee.Format.double.signed n.negative a).toUInt64

/-- One tenth, and a number that is rounded twice. -/
example : toDouble? ⟨false, [0], [1], none⟩ = some 0x3FB999999999999A ∧
    toDouble? ⟨true, [2], [5], some 999⟩ = none ∧
    toDouble? ⟨true, [2], [5], some (-999)⟩ = some 0x8000000000000000 := by
  decide +kernel

end JsonNumber
end ColumnStore
