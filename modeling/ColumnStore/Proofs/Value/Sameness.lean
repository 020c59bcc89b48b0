/-
# Values that are the same

Two values are the same when the order does not tell them apart, and `NULL` is the same as `NULL`.  The
order sees every byte of a text and every bit of a number, the payload of a NaN included, but not the
sign of a zero.  So values are the same exactly if they are one value once all zeros have lost their
signs, at whatever depth of a list (`Scalar.same_iff_plainZeros`).

Together with the laws of the order this makes the values of a type a total preorder, with sameness as
its equivalence (`Scalar.order_total_preorder`).
-/

import ColumnStore.Bytes.Utf8
import ColumnStore.Proofs.Value.Ordering

namespace ColumnStore

/-! ## Texts and numbers -/

/-- **A text is determined by its bytes.** -/
theorem Bytes.ofString_inj {s t : String} : ofString s = ofString t ↔ s = t := by
  refine ⟨fun h => ?_, congrArg _⟩
  have hs := Utf8.decode_ofString s
  rw [h, Utf8.decode_ofString] at hs
  exact (Except.ok.inj hs).symm

/-- Byte strings that the order does not tell apart are one. -/
theorem Bytes.order_eq_eq {a b : Bytes} : Bytes.order a b = .eq ↔ a = b := by
  induction a generalizing b with
  | nil => cases b <;> simp [Bytes.order]
  | cons x rest ih =>
    cases b with
    | nil => simp [Bytes.order]
    | cons y more =>
      rw [Bytes.order, Ordering.then_eq_eq, Nat.compare_eq_eq, ih, List.cons.injEq, UInt8.toNat_inj]

namespace Ieee
namespace Format

variable {f : Format} {a b : Nat}

/-- A pattern is its magnitude, with the weight of the sign on top where that is set. -/
theorem eq_magnitude_add (ha : a < 2 * f.signWeight) :
    f.magnitude a < f.signWeight ∧
      a = f.magnitude a + if f.isNegative a then f.signWeight else 0 := by
  refine ⟨Nat.mod_lt _ (by omega), ?_⟩
  rw [magnitude, isNegative]
  by_cases hle : f.signWeight ≤ a
  · rw [Nat.mod_eq_sub_mod hle, Nat.mod_eq_of_lt (by omega), if_pos (decide_eq_true hle)]
    omega
  · rw [Nat.mod_eq_of_lt (Nat.lt_of_not_le hle), if_neg (by simpa using hle), Nat.add_zero]

/-- **Patterns share a place on the line** only if they are one, or two zeros. -/
theorem key_eq_iff (ha : a < 2 * f.signWeight) (hb : b < 2 * f.signWeight) :
    f.key a = f.key b ↔ a = b ∨ (f.magnitude a = 0 ∧ f.magnitude b = 0) := by
  obtain ⟨hlow, hsum⟩ := eq_magnitude_add ha
  obtain ⟨hlow', hsum'⟩ := eq_magnitude_add hb
  rw [key, key]
  generalize f.magnitude a = m at *
  generalize f.magnitude b = n at *
  cases hna : f.isNegative a <;> cases hnb : f.isNegative b <;>
    simp only [hna, hnb, if_true, if_false, Bool.false_eq_true] at hsum hsum' ⊢ <;> omega

end Format
end Ieee

namespace Scalar

theorem eq_null {x : Scalar} (h : x.isNull = true) : x = .null := by
  cases x <;> first | rfl | cases h

theorem same_iff {x y : Scalar} (hx : x.isNull = false) :
    x.same y = true ↔ x.order? y = some .eq := by
  cases x <;> first | exact beq_iff_eq | cases hx

/-- Only `NULL` is the same as `NULL`. -/
theorem isNull_of_same {x y : Scalar} (h : x.same y = true) : x.isNull = y.isNull := by
  cases x <;> cases y <;> first | rfl | simp [same, order?] at h

/-! ## Zeros without signs -/

mutual

/-- A value with the positive zero in place of each zero, at any depth. -/
def plainZeros : Scalar → Scalar
  | .real bits => .real (if Ieee.Format.single.magnitude bits.toNat = 0 then 0 else bits)
  | .double bits => .double (if Ieee.Format.double.magnitude bits.toNat = 0 then 0 else bits)
  | .list items => .list (plainItems items)
  | x => x

/-- Items with the positive zero in place of each zero. -/
def plainItems : List Scalar → List Scalar
  | [] => []
  | x :: rest => plainZeros x :: plainItems rest

end

@[simp] theorem isNull_plainZeros (x : Scalar) : x.plainZeros.isNull = x.isNull := by
  cases x <;> rfl

/-- One value in place of all that have a property, and every other value as it is. -/
theorem ite_eq_ite_iff {α : Type} {P : α → Prop} [DecidablePred P] {z a b : α} (hz : P z) :
    (if P a then z else a) = (if P b then z else b) ↔ a = b ∨ (P a ∧ P b) := by
  by_cases ha : P a <;> by_cases hb : P b
  · simp [ha, hb]
  · have hne : ∀ c, P c → c ≠ b := fun c hc heq => hb (heq ▸ hc)
    simp [ha, hb, hne z hz, hne a ha]
  · have hne : ∀ c, P c → a ≠ c := fun c hc heq => ha (heq ▸ hc)
    simp [ha, hb, hne z hz, hne b hb]
  · simp [ha, hb]

theorem order?_real_eq (a b : UInt32) :
    order? (.real a) (.real b) = some .eq ↔ (real a).plainZeros = (real b).plainZeros := by
  have hlt : ∀ n : UInt32, n.toNat < 2 * Ieee.Format.single.signWeight := fun n => n.toNat_lt
  rw [order?, Option.some.injEq, Ieee.Format.order, Int.compare_eq_eq,
    Ieee.Format.key_eq_iff (hlt a) (hlt b), UInt32.toNat_inj, plainZeros, plainZeros, real.injEq,
    ite_eq_ite_iff (P := fun n : UInt32 => Ieee.Format.single.magnitude n.toNat = 0) rfl]

theorem order?_double_eq (a b : UInt64) :
    order? (.double a) (.double b) = some .eq ↔ (double a).plainZeros = (double b).plainZeros := by
  have hlt : ∀ n : UInt64, n.toNat < 2 * Ieee.Format.double.signWeight := fun n => n.toNat_lt
  rw [order?, Option.some.injEq, Ieee.Format.order, Int.compare_eq_eq,
    Ieee.Format.key_eq_iff (hlt a) (hlt b), UInt64.toNat_inj, plainZeros, plainZeros, double.injEq,
    ite_eq_ite_iff (P := fun n : UInt64 => Ieee.Format.double.magnitude n.toNat = 0) rfl]

mutual

/-- **The order takes two values for equal** only if they are one but for the signs of zeros. -/
theorem order?_eq_iff {x : Scalar} (hx : x.isNull = false) (y : Scalar) :
    x.order? y = some .eq ↔ x.plainZeros = y.plainZeros := by
  cases x with
  | null => cases hx
  | real a =>
    cases y with
    | real b => exact order?_real_eq a b
    | _ => simp [order?, plainZeros]
  | double a =>
    cases y with
    | double b => exact order?_double_eq a b
    | _ => simp [order?, plainZeros]
  | list xs =>
    cases y with
    | list ys => rw [order?, itemsOrder?_eq_iff xs ys, plainZeros, plainZeros, list.injEq]
    | _ => simp [order?, plainZeros]
  | _ =>
    cases y <;> simp [order?, plainZeros, Int8.toInt_inj, Int16.toInt_inj, Int32.toInt_inj,
      Int64.toInt_inj, UInt64.toNat_inj, Bytes.order_eq_eq, Bytes.ofString_inj]

theorem itemsOrder?_eq_iff : ∀ xs ys : List Scalar,
    itemsOrder? xs ys = some .eq ↔ plainItems xs = plainItems ys
  | [], [] => by simp [itemsOrder?, plainItems]
  | [], _ :: _ => by simp [itemsOrder?, plainItems]
  | _ :: _, [] => by simp [itemsOrder?, plainItems]
  | x :: xs, y :: ys => by
    have hitem : itemOrder? x y = some .eq ↔ x.plainZeros = y.plainZeros := by
      -- an item that is `NULL` is the same as no other
      have hne : x.isNull ≠ y.isNull → x.plainZeros ≠ y.plainZeros := fun hnull heq =>
        hnull (by rw [← isNull_plainZeros x, heq, isNull_plainZeros])
      rw [itemOrder?]
      cases hx : x.isNull <;> cases hy : y.isNull
      · exact order?_eq_iff hx y
      · exact iff_of_false (by simp) (hne (by simp [hx, hy]))
      · exact iff_of_false (by simp) (hne (by simp [hx, hy]))
      · rw [eq_null hx, eq_null hy]
        exact iff_of_true rfl rfl
    rw [itemsOrder?_cons, plainItems, plainItems, List.cons.injEq, ← hitem, ← itemsOrder?_eq_iff xs ys]
    cases itemOrder? x y with
    | none => simp
    | some o => cases o <;> simp

end

/-- **Values are the same** exactly if they are one but for the signs of zeros. -/
theorem same_iff_plainZeros (x y : Scalar) : x.same y = true ↔ x.plainZeros = y.plainZeros := by
  cases hx : x.isNull with
  | false => rw [same_iff hx, order?_eq_iff hx]
  | true =>
    obtain rfl := eq_null hx
    refine ⟨fun h => by rw [← eq_null (isNull_of_same h).symm], fun h => ?_⟩
    have hy : y = .null := eq_null (by rw [← isNull_plainZeros, ← h]; rfl)
    rw [hy]
    rfl

/-- **What is the same as the same is the same.** -/
theorem same_trans {x y z : Scalar} (h : x.same y = true) (h' : y.same z = true) :
    x.same z = true := by
  rw [same_iff_plainZeros] at h h' ⊢
  exact h.trans h'

/-- **The values of a type are in a total preorder,** lists of any depth with `NULL`s among their items
included.  Two values that are not `NULL` can always be compared; every value is equal to itself, to
exchange two values turns their order around, and two comparisons that do not go down give that of the
ends, which goes up as soon as one of them does.

Sameness is the equivalence of this preorder, with `NULL` in a class of its own.  Values of one class
are identical but for the signs of zeros. -/
theorem order_total_preorder (t : ColumnType) :
    (∀ a b c : Scalar, a.fits t = true → b.fits t = true → c.fits t = true →
      a.isNull = false → b.isNull = false → c.isNull = false →
        (∃ o, a.order? b = some o ∧ b.order? a = some o.swap) ∧ a.order? a = some .eq ∧
        (∀ o o', a.order? b = some o → b.order? c = some o' → o ≠ .gt → o' ≠ .gt →
          a.order? c = some (o.then o')) ∧
        (a.same b = true ↔ a.order? b = some .eq)) ∧
    (Equivalence fun x y : Scalar => x.same y = true) ∧
    (∀ x : Scalar, x.same .null = true ↔ x = .null) ∧
    ∀ x y : Scalar, x.same y = true ↔ x.plainZeros = y.plainZeros := by
  have hsame := same_iff_plainZeros
  refine ⟨fun a b c ha hb _ han hbn _ => ?_, ⟨same_self, fun h => ?_, same_trans⟩,
    fun x => ⟨fun h => eq_null (isNull_of_same h), fun h => h ▸ same_self _⟩, hsame⟩
  · obtain ⟨o, ho⟩ := order?_of_fits a ha hb han hbn
    refine ⟨⟨o, ho, ?_⟩, order?_self ?_, fun _ _ => order?_chain a, same_iff han⟩
    · rw [order?_swap a b, ho, Option.map_some]
    · rintro rfl
      cases han
  · rw [hsame] at h ⊢
    exact h.symm

/-- Lists of lists of numbers: a negative zero and a positive one at depth two are the same and two
values, and a list that ends in `NULL` comes after both. -/
theorem order_total_preorder_nested :
    let a : Scalar := .list [.null, .list [.double 0x8000000000000000, .double 0x7FF8000000000000]]
    let b : Scalar := .list [.null, .list [.double 0, .double 0x7FF8000000000000]]
    let c : Scalar := .list [.null, .null]
    a.order? b = some .eq ∧ b.order? c = some .lt ∧ a.order? c = some .lt ∧ a.same b = true ∧
      a.plainZeros = b.plainZeros := by
  intro a b c
  obtain ⟨hlaws, -, -, hsame⟩ := order_total_preorder (.list (.list .double))
  obtain ⟨-, -, hchain, hiff⟩ := hlaws a b c rfl rfl rfl rfl rfl rfl
  have hab : a.order? b = some .eq := rfl
  have hbc : b.order? c = some .lt := rfl
  have hac := hchain _ _ hab hbc (by decide) (by decide)
  exact ⟨hab, hbc, hac, hiff.mpr hab, (hsame a b).mp (hiff.mpr hab)⟩

end Scalar
end ColumnStore
