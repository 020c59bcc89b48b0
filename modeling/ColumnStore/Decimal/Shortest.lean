/-
# The shortest decimal that reads back

A finite magnitude `m · 2 ^ q` owns an interval of reals, those that round to it.  The shortest
decimal in that interval stands for it: the fewest digits, of those the nearest value, and of two
equally near ones the larger.

For `n = 1, 2, …` digits only the two neighbours of the value on the grid with `n` digits need to be
tried: if any point of the grid lies in the interval, one of these does.  The search is in exact
integer arithmetic.
-/

namespace ColumnStore
namespace Decimal

/-- Decimal digits `digits · 10 ^ place`. -/
structure Scientific where
  digits : Nat
  place : Int
  deriving DecidableEq, Repr

/-- A positive rational `num / den` with the ends of its interval over the same denominator. -/
structure Interval where
  low : Nat
  value : Nat
  high : Nat
  den : Nat
  closed : Bool

namespace Interval

/-- Whether `n · 10 ^ place` lies in the interval. -/
def holds (i : Interval) (n : Nat) (place : Int) : Bool :=
  let left := n * Nat.pow 10 place.toNat * i.den
  let unit := Nat.pow 10 (-place).toNat
  if i.closed then i.low * unit ≤ left && left ≤ i.high * unit
  else i.low * unit < left && left < i.high * unit

/-- The value in units of `10 ^ place`, rounded down. -/
def floor (i : Interval) (place : Int) : Nat :=
  i.value * Nat.pow 10 (-place).toNat / (i.den * Nat.pow 10 place.toNat)

/-- Whether the value is nearer to `n + 1` than to `n` in units of `10 ^ place`, a tie included. -/
def nearerAbove (i : Interval) (n : Nat) (place : Int) : Bool :=
  (2 * n + 1) * i.den * Nat.pow 10 place.toNat ≤ 2 * i.value * Nat.pow 10 (-place).toNat

/-- The point of the grid with unit `10 ^ place` that stands for the value, if one lies in the
interval. -/
def onGrid? (i : Interval) (place : Int) : Option Scientific :=
  let n := i.floor place
  match i.holds n place && n != 0, i.holds (n + 1) place with
  | true, true => some ⟨if i.nearerAbove n place then n + 1 else n, place⟩
  | true, false => some ⟨n, place⟩
  | false, true => some ⟨n + 1, place⟩
  | false, false => none

/-- The coarsest of the grids with units `10 ^ place`, `10 ^ (place - 1)`, … that has a point in
the interval; `fuel` bounds the grids tried. -/
def search (i : Interval) : Nat → Int → Option Scientific
  | 0, _ => none
  | fuel + 1, place =>
    match i.onGrid? place with
    | some d => some d
    | none => i.search fuel (place - 1)

/-- The exponent `e` with `10 ^ e ≤ value < 10 ^ (e + 1)`, searched downwards from `e`. -/
def leadingPlace (i : Interval) : Nat → Int → Int
  | 0, e => e
  | fuel + 1, e =>
    if i.den * Nat.pow 10 e.toNat ≤ i.value * Nat.pow 10 (-e).toNat then e
    else i.leadingPlace fuel (e - 1)

end Interval

/-- The interval of the reals that round to `m · 2 ^ q`.  Below a power of two, the first number
of its binade, the gap is half as wide; the ends belong to numbers with an even significand. -/
def interval (fraction m : Nat) (q : Int) : Interval :=
  let up := 1 <<< q.toNat
  { low := (4 * m - if m = 1 <<< fraction then 1 else 2) * up
    value := 4 * m * up
    high := (4 * m + 2) * up
    den := 4 <<< (-q).toNat
    closed := m % 2 = 0 }

/-- The shortest decimal of the positive magnitude `m · 2 ^ q` of a format with `fraction` fraction
bits. -/
def shortest (fraction m : Nat) (q : Int) : Scientific :=
  let i := interval fraction m q
  let guess : Int := (Nat.log2 m + q) * 1233 / 4096 + 1
  let lead := i.leadingPlace 4 guess
  (i.search 20 lead).getD ⟨0, 0⟩

/-- A decimal in positional notation, without an exponent and without a point when no digit
follows it. -/
def positional (d : Scientific) : String :=
  let digits := Nat.toDigits 10 d.digits
  match d.place with
  | .ofNat zeros => String.ofList (digits ++ List.replicate (if d.digits = 0 then 0 else zeros) '0')
  | .negSucc n =>
    let places := n + 1
    let padded := List.replicate (places + 1 - digits.length) '0' ++ digits
    let whole := padded.take (padded.length - places)
    let rest := (padded.drop (padded.length - places)).reverse.dropWhile (· == '0')
    String.ofList (if rest.isEmpty then whole else whole ++ '.' :: rest.reverse)

/-- With 52 fraction bits, eleven quarters needs three digits; with two, 2.7 and 2.8 both read back
as the same number and the larger stands for it. -/
example : shortest 52 (11 <<< 49) (-51) = ⟨275, -2⟩ ∧ shortest 2 11 (-2) = ⟨28, -1⟩ := by
  decide +kernel

end Decimal
end ColumnStore
