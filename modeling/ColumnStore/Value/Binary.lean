/-
# Values of fixed width as bytes

A boolean is one byte, an integer its two's complement and a floating-point number its bits, all
with the low byte first.

`ofFixed_fixed`: a value that fits a type of fixed width is read back from its bytes.
-/

import ColumnStore.Bytes.Basic
import ColumnStore.Value.Scalar

namespace ColumnStore
namespace Scalar

/-- The bytes of a value of a fixed-width type; `NULL`, text and lists have none. -/
def fixed : Scalar → Bytes
  | .boolean v => Bytes.ofNat 1 v.toNat
  | .tinyInt v => Bytes.ofNat 1 v.toBitVec.toNat
  | .smallInt v => Bytes.ofNat 2 v.toBitVec.toNat
  | .integer v => Bytes.ofNat 4 v.toBitVec.toNat
  | .bigInt v => Bytes.ofNat 8 v.toBitVec.toNat
  | .uBigInt v => Bytes.ofNat 8 v.toNat
  | .real bits => Bytes.ofNat 4 bits.toNat
  | .double bits => Bytes.ofNat 8 bits.toNat
  | .null | .varchar _ | .list _ => []

/-- The value of a fixed-width type with given bytes; any byte but zero is `true`. -/
def ofFixed (t : ColumnType) (b : Bytes) : Scalar :=
  let n := Bytes.toNat b
  match t with
  | .boolean => .boolean (n != 0)
  | .tinyInt => .tinyInt (.ofBitVec (.ofNat 8 n))
  | .smallInt => .smallInt (.ofBitVec (.ofNat 16 n))
  | .integer => .integer (.ofBitVec (.ofNat 32 n))
  | .bigInt => .bigInt (.ofBitVec (.ofNat 64 n))
  | .uBigInt => .uBigInt (.ofNat n)
  | .real => .real (.ofNat n)
  | .double => .double (.ofNat n)
  | .varchar | .list _ => .null

/-- **A value is read back from its bytes.** -/
theorem ofFixed_fixed {v : Scalar} {t : ColumnType} (hv : v.fits t = true) (hn : v.isNull = false)
    (ht : t.storage.isFixedWidth = true) : ofFixed t v.fixed = v := by
  cases v <;> cases t <;> simp_all [fits, isNull, ofFixed, fixed, Bytes.toNat_ofNat,
    StorageClass.isFixedWidth, StorageClass.width?, ColumnType.storage]
  case boolean.boolean b => cases b <;> rfl
  all_goals
    rename_i n
    rw [Nat.mod_eq_of_lt (by exact n.toBitVec.isLt)]
    simp

/-- A value that fits a type of fixed width has as many bytes as the type is wide. -/
theorem length_fixed {v : Scalar} {t : ColumnType} (hv : v.fits t = true)
    (hn : v.isNull = false) {w : Nat} (ht : t.storage.width? = some w) : v.fixed.length = w := by
  cases v <;> cases t <;> simp_all [fits, isNull, fixed, StorageClass.width?, ColumnType.storage]

end Scalar
end ColumnStore
