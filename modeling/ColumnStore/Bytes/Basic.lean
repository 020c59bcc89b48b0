/-
# Byte strings

Everything that is stored is a list of bytes.  Numbers are written with their low byte first, in a
fixed number of bytes.

`toNat_ofNat`: what was written in `w` bytes is read back modulo `bound w`.
-/

namespace ColumnStore

/-- A byte string. -/
abbrev Bytes := List UInt8

namespace Bytes

/-- The most bytes that can be held together. -/
def longest : Nat := 0x7FFFFFFFFFFFFFFF

/-- The low `width` bytes of a number, the lowest first. -/
def ofNat : (width n : Nat) → Bytes
  | 0, _ => []
  | width + 1, n => UInt8.ofNat (n % 256) :: ofNat width (n / 256)

/-- The number whose bytes are given, the lowest first. -/
def toNat : Bytes → Nat
  | [] => 0
  | b :: rest => b.toNat + 256 * toNat rest

/-- How many numbers can be told apart in `width` bytes. -/
def bound : (width : Nat) → Nat
  | 0 => 1
  | width + 1 => 256 * bound width

@[simp] theorem length_ofNat (width n : Nat) : (ofNat width n).length = width := by
  induction width generalizing n with
  | zero => rfl
  | succ w ih => simp [ofNat, ih]

/-- **A number is read back modulo the range of its width.** -/
theorem toNat_ofNat (width n : Nat) : toNat (ofNat width n) = n % bound width := by
  induction width generalizing n with
  | zero => rw [bound, Nat.mod_one, ofNat, toNat]
  | succ w ih =>
    have hlow : (UInt8.ofNat (n % 256)).toNat = n % 256 :=
      UInt8.toNat_ofNat'.trans (Nat.mod_eq_of_lt (Nat.mod_lt n (by decide)))
    rw [ofNat, toNat, ih, bound, Nat.mod_mul, hlow]

theorem toNat_lt (b : Bytes) : toNat b < bound b.length := by
  induction b with
  | nil => decide
  | cons x rest ih =>
    have hx : x.toNat < 256 := x.toNat_lt
    simp only [toNat, List.length_cons, bound]
    omega

/-- **Bytes are rebuilt from the number that they stand for.** -/
theorem ofNat_toNat (b : Bytes) : ofNat b.length (toNat b) = b := by
  induction b with
  | nil => rfl
  | cons x rest ih =>
    have hx : x.toNat < 256 := x.toNat_lt
    have h1 : (x.toNat + 256 * toNat rest) % 256 = x.toNat := by omega
    have h2 : (x.toNat + 256 * toNat rest) / 256 = toNat rest := by omega
    simp only [List.length_cons, toNat, ofNat, h1, h2, ih]
    simp

/-- The bytes in front of position `n` and those from there on, if there are `n`. -/
def split? (n : Nat) (b : Bytes) : Option (Bytes × Bytes) :=
  let head := b.take n
  if head.length = n then some (head, b.drop n) else none

/-- **A split gives both parts back, the first as long as asked for.** -/
theorem split?_eq_some {n : Nat} {b head rest : Bytes} :
    split? n b = some (head, rest) ↔ b = head ++ rest ∧ head.length = n := by
  simp only [split?, Option.ite_none_right_eq_some, Option.some.injEq, Prod.mk.injEq]
  constructor
  · rintro ⟨h, rfl, rfl⟩
    exact ⟨(List.take_append_drop n b).symm, h⟩
  · rintro ⟨rfl, rfl⟩
    simp

/-- **A first part of known length is split off again.** -/
theorem split?_append (a b : Bytes) : split? a.length (a ++ b) = some (a, b) := by
  simp [split?]

theorem split?_of_le {n : Nat} {b : Bytes} (h : n ≤ b.length) :
    split? n b = some (b.take n, b.drop n) := by
  rw [split?, List.length_take_of_le h]
  exact if_pos rfl

theorem split?_of_lt {n : Nat} {b : Bytes} (h : b.length < n) : split? n b = none := by
  rw [split?, List.length_take]
  exact if_neg (by omega)

/-- The bytes from position `at` on, if there are `n` of them. -/
def slice? (b : Bytes) (start n : Nat) : Option Bytes :=
  if start + n ≤ b.length then some ((b.drop start).take n) else none

/-- `b` with `new` in place of the bytes from `start` on; bytes past the end are added, after zeros
where a gap would be left. -/
def overwrite (b : Bytes) (start : Nat) (new : Bytes) : Bytes :=
  b.take start ++ List.replicate (start - b.length) 0 ++ new ++ b.drop (start + new.length)

/-- `b` with zero bytes added up to the length `n`. -/
def padTo (n : Nat) (b : Bytes) : Bytes := b ++ List.replicate (n - b.length) 0

/-- The UTF-8 bytes of a text. -/
def ofString (s : String) : Bytes := s.toUTF8.data.toList

/-- The order of byte strings: by the first byte that differs, a first part before the whole. -/
def order : Bytes → Bytes → Ordering
  | [], [] => .eq
  | [], _ :: _ => .lt
  | _ :: _, [] => .gt
  | a :: as, b :: bs => (compare a.toNat b.toNat).then (order as bs)

end Bytes

end ColumnStore
