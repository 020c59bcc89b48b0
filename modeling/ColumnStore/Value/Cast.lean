/-
# Casts between numeric types

An integer is cast to another integer type when it lies in its range, and to the nearest number of a
floating-point type.  A 32-bit number widens to 64 bits.  No number is cast to an integer.
-/

import ColumnStore.Value.Scalar

namespace ColumnStore
namespace ColumnType

/-- The least and the greatest integer of an integer type. -/
def range? : ColumnType → Option (Int × Int)
  | .tinyInt => some (-128, 127)
  | .smallInt => some (-32768, 32767)
  | .integer => some (-2147483648, 2147483647)
  | .bigInt => some (-9223372036854775808, 9223372036854775807)
  | .uBigInt => some (0, 18446744073709551615)
  | _ => none

end ColumnType

namespace Scalar

/-- The value of an integer type that stands for an integer in its range. -/
def ofInt (t : ColumnType) (n : Int) : Scalar :=
  match t with
  | .tinyInt => .tinyInt (Int8.ofInt n)
  | .smallInt => .smallInt (Int16.ofInt n)
  | .integer => .integer (Int32.ofInt n)
  | .bigInt => .bigInt (Int64.ofInt n)
  | .uBigInt => .uBigInt (UInt64.ofNat n.toNat)
  | _ => .null

/-- An integer as a value of a numeric type. -/
def castInt? (n : Int) : ColumnType → Option Scalar
  | .real => some (.real (Ieee.singleOfInt n))
  | .double => some (.double (Ieee.doubleOfInt n))
  | t =>
    match t.range? with
    | some (low, high) => if low ≤ n ∧ n ≤ high then some (ofInt t n) else none
    | none => none

/-- A value as one of another type, where that is possible. -/
def cast? (v : Scalar) (t : ColumnType) : Option Scalar :=
  if v.fits t then some v
  else
    match v, t with
    | .real bits, .double => some (.double (Ieee.widen bits))
    | _, _ => v.toInt?.bind fun n => castInt? n t

end Scalar
end ColumnStore
