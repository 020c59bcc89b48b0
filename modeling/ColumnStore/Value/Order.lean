/-
# The order of values

Values of one type are ordered: booleans `false` first, numbers by value with the two zeros equal
and NaNs at the ends, text by its bytes, lists item by item with `NULL` after every value.  Values
of different types have no order.
-/

import ColumnStore.Bytes.Basic
import ColumnStore.Value.Scalar

namespace ColumnStore
namespace Scalar

mutual

/-- The order of two values, none when one is `NULL` or their types differ. -/
def order? : Scalar → Scalar → Option Ordering
  | .boolean a, .boolean b => some (compare a b)
  | .tinyInt a, .tinyInt b => some (compare a.toInt b.toInt)
  | .smallInt a, .smallInt b => some (compare a.toInt b.toInt)
  | .integer a, .integer b => some (compare a.toInt b.toInt)
  | .bigInt a, .bigInt b => some (compare a.toInt b.toInt)
  | .uBigInt a, .uBigInt b => some (compare a.toNat b.toNat)
  | .real a, .real b => some (Ieee.Format.single.order a.toNat b.toNat)
  | .double a, .double b => some (Ieee.Format.double.order a.toNat b.toNat)
  | .varchar a, .varchar b => some (Bytes.order (.ofString a) (.ofString b))
  | .list a, .list b => itemsOrder? a b
  | _, _ => none

/-- The order of two lists by the first items that differ, a first part before the whole; `NULL`
items are equal to each other and come after all others. -/
def itemsOrder? : List Scalar → List Scalar → Option Ordering
  | [], [] => some .eq
  | [], _ :: _ => some .lt
  | _ :: _, [] => some .gt
  | .null :: as, .null :: bs => itemsOrder? as bs
  | .null :: _, _ :: _ => some .gt
  | _ :: _, .null :: _ => some .lt
  | a :: as, b :: bs =>
    match order? a b with
    | some .eq => itemsOrder? as bs
    | other => other

end

/-- Whether two values are equal in the order, `NULL` and `NULL` included. -/
def same : Scalar → Scalar → Bool
  | .null, .null => true
  | a, b => order? a b == some .eq

end Scalar
end ColumnStore
