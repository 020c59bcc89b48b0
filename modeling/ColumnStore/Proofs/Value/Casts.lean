/-
# Casts keep integers in order

A binary format holds every integer below `2 ^ (fraction + 1)` exactly: such integers become different
numbers, in their order (`Ieee.Format.order_ofInt`).  So integers that are cast to a numeric type are
in the order that they were in, as long as the type holds them (`Scalar.order?_cast`).  Beyond that
two integers can be cast to the same number.
-/

import ColumnStore.Proofs.Table.Filtering
import ColumnStore.Value.Cast

namespace ColumnStore
namespace Ieee
namespace Format

variable {f : Format} {bias m m' : Nat} {a b : Int}

/-- The exponents of a format go further than the integers that it holds exactly. -/
structure Roomy (f : Format) (bias : Nat) : Prop where
  least : f.leastExponent = -((bias + f.fraction : Nat) : Int)
  top : f.fraction + bias + 2 ≤ f.topField
  sign : f.infinity < f.signWeight

theorem single_roomy : single.Roomy 126 := ⟨by decide, by decide, by decide⟩

theorem double_roomy : double.Roomy 1022 := ⟨by decide, by decide, by decide⟩

/-- A magnitude that needs no more than the significand of a format. -/
def Exact (f : Format) (m : Nat) : Prop := m < 2 ^ (f.fraction + 1)

theorem Exact.log2_le (h : f.Exact m) (hm : m ≠ 0) : m.log2 ≤ f.fraction :=
  Nat.le_of_lt_succ ((Nat.log2_lt hm).mpr h)

/-- The leading place of an exact magnitude is moved up to the leading place of the significand. -/
theorem Exact.significand (h : f.Exact m) (hm : m ≠ 0) :
    2 ^ f.fraction ≤ m * 2 ^ (f.fraction - m.log2) ∧
      m * 2 ^ (f.fraction - m.log2) < 2 * 2 ^ f.fraction := by
  have hle := h.log2_le hm
  have hlow : 2 ^ m.log2 * 2 ^ (f.fraction - m.log2) = 2 ^ f.fraction := by
    rw [← Nat.pow_add, Nat.add_sub_cancel' hle]
  constructor
  · rw [← hlow]
    exact Nat.mul_le_mul_right _ (Nat.log2_self_le hm)
  · have hhigh : 2 * 2 ^ f.fraction = 2 ^ (m.log2 + 1) * 2 ^ (f.fraction - m.log2) := by
      rw [Nat.pow_succ, Nat.mul_right_comm, hlow, Nat.mul_comm]
    rw [hhigh]
    exact Nat.mul_lt_mul_of_pos_right Nat.lt_log2_self (Nat.two_pow_pos _)

/-- **An exact magnitude is not rounded.** -/
theorem roundMagnitude_eq (hf : f.Roomy bias) (h : f.Exact m) (hm : m ≠ 0) :
    f.roundMagnitude m 0 = (m.log2 + bias) * 2 ^ f.fraction + m * 2 ^ (f.fraction - m.log2) := by
  have hle := h.log2_le hm
  have hleast := hf.least
  have hplace : max (0 + (m.log2 : Int) - f.fraction) f.leastExponent = m.log2 - f.fraction := by
    omega
  have hfield : ((m.log2 : Int) - f.fraction - f.leastExponent).toNat = m.log2 + bias := by omega
  have hshift : (0 - ((m.log2 : Int) - f.fraction)).toNat = f.fraction - m.log2 := by omega
  have htop : (m.log2 + bias) * 2 ^ f.fraction + m * 2 ^ (f.fraction - m.log2) ≤ f.infinity := by
    have hroom := Nat.mul_le_mul_right (2 ^ f.fraction)
      (show m.log2 + bias + 2 ≤ f.topField by have := hf.top; omega)
    have hlt := (h.significand hm).2
    rw [Nat.add_mul] at hroom
    rw [infinity, Nat.shiftLeft_eq]
    omega
  rw [roundMagnitude, if_neg hm]
  dsimp only
  rw [hplace, hfield, if_pos (by omega), hshift, Nat.shiftLeft_eq, Nat.shiftLeft_eq,
    Nat.min_eq_left htop]

/-- **Exact magnitudes stay in order.** -/
theorem roundMagnitude_lt (hf : f.Roomy bias) (h : f.Exact m') (hlt : m < m') :
    f.roundMagnitude m 0 < f.roundMagnitude m' 0 := by
  have hm' : m' ≠ 0 := Nat.ne_of_gt (Nat.lt_of_le_of_lt (Nat.zero_le m) hlt)
  have hlow' := (h.significand hm').1
  have hpos := Nat.two_pow_pos f.fraction
  rw [roundMagnitude_eq hf h hm']
  by_cases hm : m = 0
  · rw [roundMagnitude, if_pos hm]
    omega
  have hexact : f.Exact m := Nat.lt_trans hlt h
  have hhigh := (hexact.significand hm).2
  have hlog : m.log2 ≤ m'.log2 := (Nat.le_log2 hm').mpr
    (Nat.le_trans (Nat.log2_self_le hm) (Nat.le_of_lt hlt))
  rw [roundMagnitude_eq hf hexact hm]
  rcases Nat.eq_or_lt_of_le hlog with heq | hlog
  · rw [heq]
    exact Nat.add_lt_add_left (Nat.mul_lt_mul_of_pos_right hlt (Nat.two_pow_pos _)) _
  · have hfield := Nat.mul_le_mul_right (2 ^ f.fraction)
      (show m.log2 + bias + 1 ≤ m'.log2 + bias by omega)
    rw [Nat.add_mul, Nat.one_mul] at hfield
    omega

theorem roundMagnitude_le (f : Format) (m : Nat) : f.roundMagnitude m 0 ≤ f.infinity := by
  rw [roundMagnitude]
  split
  · exact Nat.zero_le _
  · exact Nat.min_le_right _ _

/-- Where the number nearest to an integer lies among the others. -/
theorem key_ofInt (hf : f.Roomy bias) (a : Int) : f.key (f.ofInt a) =
    if a < 0 then -(f.roundMagnitude a.natAbs 0 : Int) else f.roundMagnitude a.natAbs 0 := by
  have hlt : f.roundMagnitude a.natAbs 0 < f.signWeight :=
    Nat.lt_of_le_of_lt (f.roundMagnitude_le _) hf.sign
  rw [ofInt, round, signed, key, isNegative, magnitude]
  by_cases ha : a < 0
  · simp [ha, Nat.mod_eq_of_lt hlt]
  · simp [ha, Nat.mod_eq_of_lt hlt, Nat.not_le_of_lt hlt]

theorem key_ofInt_lt (hf : f.Roomy bias) (ha : f.Exact a.natAbs) (hb : f.Exact b.natAbs)
    (hlt : a < b) : f.key (f.ofInt a) < f.key (f.ofInt b) := by
  rw [key_ofInt hf, key_ofInt hf]
  by_cases hneg : b < 0
  · have := roundMagnitude_lt hf ha (show b.natAbs < a.natAbs by omega)
    rw [if_pos (by omega), if_pos hneg]
    omega
  rw [if_neg hneg]
  by_cases hneg : a < 0
  · have := roundMagnitude_lt hf ha (show 0 < a.natAbs by omega)
    rw [if_pos hneg]
    omega
  · have := roundMagnitude_lt hf hb (show a.natAbs < b.natAbs by omega)
    rw [if_neg hneg]
    omega

/-- **Exact integers become numbers in their order.** -/
theorem order_ofInt (hf : f.Roomy bias) (ha : f.Exact a.natAbs) (hb : f.Exact b.natAbs) :
    f.order (f.ofInt a) (f.ofInt b) = compare a b := by
  rw [order, Int.compare_eq_ite_lt, Int.compare_eq_ite_lt]
  rcases Int.lt_trichotomy a b with h | rfl | h
  · rw [if_pos h, if_pos (key_ofInt_lt hf ha hb h)]
  · rw [if_neg (Int.lt_irrefl _), if_neg (Int.lt_irrefl _), if_neg (Int.lt_irrefl _),
      if_neg (Int.lt_irrefl _)]
  · have hkey := key_ofInt_lt hf hb ha h
    rw [if_neg (Int.lt_asymm h), if_pos h, if_neg (Int.lt_asymm hkey), if_pos hkey]

/-- The pattern has the bits of the format. -/
theorem ofInt_lt (hf : f.Roomy bias) (a : Int) : f.ofInt a < 2 * f.signWeight := by
  have hle := f.roundMagnitude_le a.natAbs
  have hlt := hf.sign
  rw [ofInt, round, signed]
  split <;> omega

end Format
end Ieee

/-- Whether a numeric type holds an integer: every one that can be cast to an integer type, and those
that a floating-point type holds exactly. -/
def ColumnType.Keeps (t : ColumnType) (n : Int) : Prop :=
  match t with
  | .real => Ieee.Format.single.Exact n.natAbs
  | .double => Ieee.Format.double.Exact n.natAbs
  | _ => True

namespace Scalar

/-- An integer that is cast to no integer type is cast as an integer. -/
theorem cast?_eq_castInt? {x : Scalar} {t : ColumnType} {n : Int} (hn : x.toInt? = some n)
    (ht : t.range? = none) : x.cast? t = castInt? n t := by
  have hfit : x.fits t = false := by
    cases x <;> first | cases hn; done | (cases t <;> first | rfl | cases ht)
  unfold cast?
  rw [hfit, if_neg Bool.false_ne_true]
  cases x <;> first | cases hn; done | exact congrArg (fun a => Option.bind a _) hn

theorem order?_real (a b : Int) (ha : Ieee.Format.single.Exact a.natAbs)
    (hb : Ieee.Format.single.Exact b.natAbs) :
    (real (Ieee.singleOfInt a)).order? (real (Ieee.singleOfInt b)) = some (compare a b) := by
  have hbits : ∀ n, (Ieee.singleOfInt n).toNat = Ieee.Format.single.ofInt n := fun n =>
    UInt32.toNat_ofNat_of_lt (Ieee.Format.ofInt_lt Ieee.Format.single_roomy n)
  rw [order?, hbits, hbits, Ieee.Format.order_ofInt Ieee.Format.single_roomy ha hb]

theorem order?_double (a b : Int) (ha : Ieee.Format.double.Exact a.natAbs)
    (hb : Ieee.Format.double.Exact b.natAbs) :
    (double (Ieee.doubleOfInt a)).order? (double (Ieee.doubleOfInt b)) = some (compare a b) := by
  have hbits : ∀ n, (Ieee.doubleOfInt n).toNat = Ieee.Format.double.ofInt n := fun n =>
    UInt64.toNat_ofNat_of_lt (Ieee.Format.ofInt_lt Ieee.Format.double_roomy n)
  rw [order?, hbits, hbits, Ieee.Format.order_ofInt Ieee.Format.double_roomy ha hb]

/-- **Integers of any type are in the same order when they are cast,** to a type that keeps them. -/
theorem order?_cast {x y x' y' : Scalar} {t : ColumnType} {m n : Int} (hm : x.toInt? = some m)
    (hn : y.toInt? = some n) (hx : x.cast? t = some x') (hy : y.cast? t = some y')
    (hkeepm : t.Keeps m) (hkeepn : t.Keeps n) : x'.order? y' = some (compare m n) := by
  cases ht : t.range? with
  | some range =>
    obtain ⟨low, high⟩ := range
    have hcast : ∀ {z z' : Scalar} {k : Int}, z.toInt? = some k → z.cast? t = some z' →
        z'.fits t = true ∧ z'.toInt? = some k := by
      intro z z' k hk hz
      obtain ⟨hin, hout⟩ := cast?_int ht hk
      by_cases hrange : low ≤ k ∧ k ≤ high
      · obtain ⟨w, hw, hfit, hint⟩ := hin hrange
        obtain rfl := Option.some.inj (hw.symm.trans hz)
        exact ⟨hfit, hint⟩
      · rw [hout hrange] at hz
        cases hz
    obtain ⟨hfitx, hintx⟩ := hcast hm hx
    obtain ⟨hfity, hinty⟩ := hcast hn hy
    exact order?_ints ht hfitx hfity hintx hinty
  | none =>
    rw [cast?_eq_castInt? hm ht] at hx
    rw [cast?_eq_castInt? hn ht] at hy
    cases t
    case real =>
      obtain rfl := Option.some.inj hx
      obtain rfl := Option.some.inj hy
      exact order?_real m n hkeepm hkeepn
    case double =>
      obtain rfl := Option.some.inj hx
      obtain rfl := Option.some.inj hy
      exact order?_double m n hkeepm hkeepn
    all_goals first | cases ht; done | cases hx

/-- Above the integers that it keeps, a type gives two of them one number. -/
example : (bigInt 9007199254740993).cast? .double = (bigInt 9007199254740992).cast? .double := rfl

end Scalar
end ColumnStore
