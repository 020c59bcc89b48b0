/-
# Values

One value of a column, or `NULL`.  Floating-point numbers are kept as their bits.
-/

import ColumnStore.Value.Type
import ColumnStore.Ieee.Round
import ColumnStore.Decimal.Shortest

namespace ColumnStore

/-- A value of some column type, or `NULL`. -/
inductive Scalar where
  | null
  | boolean (value : Bool)
  | tinyInt (value : Int8)
  | smallInt (value : Int16)
  | integer (value : Int32)
  | bigInt (value : Int64)
  | uBigInt (value : UInt64)
  | real (bits : UInt32)
  | double (bits : UInt64)
  | varchar (text : String)
  | list (items : List Scalar)
  deriving Inhabited, Repr, BEq

/-- One value per column. -/
abbrev Row := List Scalar

namespace Scalar

def isNull : Scalar → Bool
  | .null => true
  | _ => false

/-- The integer that an integer value stands for. -/
def toInt? : Scalar → Option Int
  | .tinyInt v => some v.toInt
  | .smallInt v => some v.toInt
  | .integer v => some v.toInt
  | .bigInt v => some v.toInt
  | .uBigInt v => some v.toNat
  | _ => none

/-- The bits of the 64-bit number nearest to a numeric value. -/
def toDouble? : Scalar → Option UInt64
  | .real bits => some (Ieee.widen bits)
  | .double bits => some bits
  | v => v.toInt?.map Ieee.doubleOfInt

def text? : Scalar → Option String
  | .varchar s => some s
  | _ => none

mutual

/-- Whether a value can be kept in a column of a type as it is: `NULL` in any, a list where each of
its items fits the type of the items. -/
def fits : Scalar → ColumnType → Bool
  | .null, _ => true
  | .boolean _, .boolean => true
  | .tinyInt _, .tinyInt => true
  | .smallInt _, .smallInt => true
  | .integer _, .integer => true
  | .bigInt _, .bigInt => true
  | .uBigInt _, .uBigInt => true
  | .real _, .real => true
  | .double _, .double => true
  | .varchar _, .varchar => true
  | .list items, .list item => allFit items item
  | _, _ => false

/-- Whether every item fits a type. -/
def allFit : List Scalar → ColumnType → Bool
  | [], _ => true
  | v :: rest, t => fits v t && allFit rest t

end

/-- The value that a slot of a column holds before anything is written to it. -/
def blank : ColumnType → Scalar
  | .boolean => .boolean false
  | .tinyInt => .tinyInt 0
  | .smallInt => .smallInt 0
  | .integer => .integer 0
  | .bigInt => .bigInt 0
  | .uBigInt => .uBigInt 0
  | .real => .real 0
  | .double => .double 0
  | .varchar => .varchar ""
  | .list _ => .list []

/-- A blank value fits its type. -/
theorem fits_blank (t : ColumnType) : (blank t).fits t = true := by
  cases t <;> simp [blank, fits, allFit]

end Scalar

namespace Ieee

/-- A stored number in text: the shortest decimal that reads back, in positional notation. -/
def Format.render (f : Format) (bits : Nat) : String :=
  if f.isNaN bits then "NaN"
  else
    let sign := if f.isNegative bits then "-" else ""
    if f.isInfinite bits then sign ++ "inf"
    else
      let ⟨m, q⟩ := f.scaled bits
      if m = 0 then sign ++ "0" else sign ++ Decimal.positional (Decimal.shortest f.fraction m q)

end Ieee

namespace Scalar

mutual

/-- A value in text: `NULL`, text between single quotes as it is, a list between brackets. -/
def render : Scalar → String
  | .null => "NULL"
  | .boolean v => if v then "true" else "false"
  | .tinyInt v => toString v.toInt
  | .smallInt v => toString v.toInt
  | .integer v => toString v.toInt
  | .bigInt v => toString v.toInt
  | .uBigInt v => toString v.toNat
  | .real bits => Ieee.Format.single.render bits.toNat
  | .double bits => Ieee.Format.double.render bits.toNat
  | .varchar s => "'" ++ s ++ "'"
  | .list items => "[" ++ renderItems items ++ "]"

/-- The items of a list, separated by commas. -/
def renderItems : List Scalar → String
  | [] => ""
  | [v] => render v
  | v :: rest => render v ++ ", " ++ renderItems rest

end

end Scalar
end ColumnStore
