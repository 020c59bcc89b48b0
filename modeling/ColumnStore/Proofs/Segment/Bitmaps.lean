/-
# Bitmaps

Flags that are packed into bytes are found again bit by bit (`Validity.bit?_packBits`).  A mask is
read from any bytes that have a bit for each slot (`Validity.ofNullBitmap?_eq`), so the mask that is
read from the bitmap of another mask marks the same slots (`Validity.ofNullBitmap?_packBits`).
-/

import ColumnStore.Proofs.Attempts
import ColumnStore.Proofs.Vector.Slots
import Mathlib.Algebra.Group.Nat.Defs

namespace ColumnStore
namespace Validity

/-! ## Bits -/

/-- Flags as a number, the first in the lowest bit. -/
def packed (flags : List Bool) : Nat := flags.foldr (fun flag acc => 2 * acc + flag.toNat) 0

theorem packed_cons (flag : Bool) (rest : List Bool) :
    packed (flag :: rest) = 2 * packed rest + flag.toNat := rfl

theorem packed_lt (flags : List Bool) : packed flags < 2 ^ flags.length := by
  induction flags with
  | nil => decide
  | cons flag rest ih =>
    rw [packed_cons, List.length_cons, Nat.pow_succ]
    have := Bool.toNat_le flag
    omega

/-- **Each flag is a bit.** -/
theorem testBit_packed (flags : List Bool) (i : Nat) :
    (packed flags).testBit i = flags[i]?.getD false := by
  induction flags generalizing i with
  | nil => simp [packed]
  | cons flag rest ih =>
    rw [packed_cons]
    cases i with
    | zero => cases flag <;> simp [Nat.testBit_zero, Nat.add_mod]
    | succ i =>
      have hhalf : (2 * packed rest + flag.toNat) / 2 = packed rest := by
        have := Bool.toNat_le flag
        omega
      rw [Nat.testBit_succ, hhalf, ih, List.getElem?_cons_succ]

theorem toNat_packByte {flags : List Bool} (h : flags.length ≤ 8) :
    (packByte flags).toNat = packed flags := by
  have hlt : packed flags < 256 :=
    Nat.lt_of_lt_of_le (packed_lt flags) (Nat.pow_le_pow_right (by decide) h)
  exact UInt8.toNat_ofNat'.trans (Nat.mod_eq_of_lt hlt)

theorem length_packBits (flags : List Bool) : (packBits flags).length = (flags.length + 7) / 8 := by
  induction flags using packBits.induct with
  | case1 => simp [packBits]
  | case2 flag rest ih =>
    rw [packBits, List.length_cons, ih, List.length_drop, List.length_cons]
    omega

/-- **Every bit of packed flags:** the flag at its place, and zero where the last byte is filled up. -/
theorem bit?_packBits_eq {flags : List Bool} {i : Nat} (h : i < 8 * (packBits flags).length) :
    bit? (packBits flags) i = some (flags[i]?.getD false) := by
  induction flags using packBits.induct generalizing i with
  | case1 => simp [packBits] at h
  | case2 flag rest ih =>
    rw [packBits, List.length_cons] at h
    rw [packBits, bit?]
    rcases Nat.lt_or_ge i 8 with hi | hi
    · rw [Nat.div_eq_of_lt hi, Nat.mod_eq_of_lt hi, List.getElem?_cons_zero, Option.map_some,
        toNat_packByte (by rw [List.length_cons, List.length_take]; omega), testBit_packed,
        ← List.take_succ_cons, List.getElem?_take_of_lt hi]
    · obtain ⟨j, rfl⟩ := Nat.exists_eq_add_of_le hi
      have hdiv : (8 + j) / 8 = j / 8 + 1 := by omega
      have hmod : (8 + j) % 8 = j % 8 := by omega
      have hdrop : (flag :: rest)[8 + j]? = (rest.drop 7)[j]? := by
        rw [List.getElem?_drop, show 8 + j = 7 + j + 1 by omega, List.getElem?_cons_succ]
      rw [hdiv, hmod, List.getElem?_cons_succ, hdrop, ← ih (i := j) (by omega)]
      rfl

/-- **A flag is found at its bit.** -/
theorem bit?_packBits {flags : List Bool} {i : Nat} (h : i < flags.length) :
    bit? (packBits flags) i = flags[i]? := by
  rw [bit?_packBits_eq (by rw [length_packBits]; omega), List.getElem?_eq_getElem h]
  rfl

/-! ## Masks -/

/-- **The marks of the first slots.** -/
theorem firstMarks?_eq_some {v : Validity} {n : Nat} {marks : List Bool}
    (h : v.firstMarks? n = some marks) : marks.length = n ∧ ∀ i < n, v.get? i = marks[i]? := by
  rw [firstMarks?] at h
  cases hm : v.marks with
  | none =>
    rw [hm] at h
    obtain rfl := Option.some.inj h
    refine ⟨List.length_replicate, fun i hi => ?_⟩
    rw [get?, hm, List.getElem?_replicate_of_lt hi]
  | some all =>
    rw [hm] at h
    dsimp only at h
    split at h
    · rename_i hn
      obtain rfl := Option.some.inj h
      refine ⟨by simpa using Nat.min_eq_left hn, fun i hi => ?_⟩
      rw [get?, hm, List.getElem?_take_of_lt hi, Array.getElem?_toList]
    · cases h

/-- The marks of slots that are there can be read, together or one by one. -/
theorem firstMarks?_isSome {v : Validity} (h : v.Sound) {n : Nat} (hn : n ≤ v.capacity) :
    ∃ marks, v.firstMarks? n = some marks := by
  rw [firstMarks?]
  cases hm : v.marks with
  | none => exact ⟨_, rfl⟩
  | some all => exact ⟨_, if_pos (h all hm ▸ Nat.le_trans hn (le_markCount _))⟩

theorem countNull?_isSome {v : Validity} (h : v.Sound) {n : Nat} (hn : n ≤ v.capacity) :
    ∃ nulls, v.countNull? n = some nulls := by
  obtain ⟨marks, hmarks⟩ := firstMarks?_isSome h hn
  rw [countNull?, hmarks]
  split <;> exact ⟨_, rfl⟩

theorem mapM_get?_isSome {v : Validity} (h : v.Sound) {n : Nat} (hn : n ≤ v.capacity) :
    ∃ marks, (List.range n).mapM v.get? = some marks ∧ marks.length = n ∧
      ∀ i < n, marks[i]? = v.get? i := by
  obtain ⟨marks, hmarks⟩ := firstMarks?_isSome h hn
  obtain ⟨hlen, hget⟩ := firstMarks?_eq_some hmarks
  have hread : ∀ i ∈ List.range n, v.get? i = some (marks.getD i true) := by
    intro i hi
    have hi' : i < marks.length := hlen ▸ List.mem_range.mp hi
    rw [hget i (List.mem_range.mp hi), List.getD_eq_getElem?_getD, List.getElem?_eq_getElem hi']
    rfl
  refine ⟨_, mapM_eq_map hread, by simp, fun i hi => ?_⟩
  rw [hread i (List.mem_range.mpr hi), List.getElem?_map, List.getElem?_range hi, Option.map_some]

theorem bit?_isSome {bits : Bytes} {i : Nat} (h : i < 8 * bits.length) :
    ∃ isNull, bit? bits i = some isNull := by
  rw [bit?, List.getElem?_eq_getElem (Nat.div_lt_of_lt_mul h)]
  exact ⟨_, rfl⟩

/-- **A bitmap with bits for all slots is read,** and a slot is valid when its bit is clear. -/
theorem ofNullBitmap?_eq {bits : Bytes} {n : Nat} (h : n ≤ 8 * bits.length) (capacity : Nat) :
    ∃ v, ofNullBitmap? bits n capacity = some v ∧ v.Sound ∧ v.capacity = max capacity n ∧
      ∀ i < n, v.get? i = (bit? bits i).map (!·) := by
  -- by induction on the number of bits that were read; the other slots are still valid
  have hread : ∀ k ≤ n, ∃ v, (List.range k).foldlM (fun v i => do
      let isNull ← bit? bits i
      if isNull then v.setNull? i else some v) (new (max capacity n)) = some v ∧ v.Sound ∧
      v.capacity = max capacity n ∧
      ∀ i < n, v.get? i = if i < k then (bit? bits i).map (!·) else some true := by
    intro k
    induction k with
    | zero => exact fun _ => ⟨_, rfl, sound_new _, rfl, fun i _ => rfl⟩
    | succ k ih =>
      intro hk
      obtain ⟨v, hv, hs, hc, hget⟩ := ih (Nat.le_of_succ_le hk)
      obtain ⟨isNull, hbit⟩ := bit?_isSome (Nat.lt_of_lt_of_le hk h)
      rw [List.range_succ, List.foldlM_append, hv]
      simp only [Option.bind_eq_bind, Option.bind_some, List.foldlM_cons, List.foldlM_nil, hbit]
      cases isNull with
      | true =>
        have hlt : k < v.capacity := hc ▸ Nat.lt_of_lt_of_le hk (Nat.le_max_right _ _)
        obtain ⟨v', hset, hs', hc', hnull, hother⟩ := setNull?_of_lt hs hlt
        refine ⟨v', by simp [hset], hs', hc'.trans hc, fun i hi => ?_⟩
        have hi' : i < v.capacity := hc ▸ Nat.lt_of_lt_of_le hi (Nat.le_max_right _ _)
        rcases Nat.lt_trichotomy i k with hlt | rfl | hgt
        · rw [hother i (Nat.ne_of_lt hlt) hi', hget i hi, if_pos hlt, if_pos (Nat.lt_succ_of_lt hlt)]
        · rw [hnull, if_pos (Nat.lt_succ_self _), hbit, Option.map_some, Bool.not_true]
        · rw [hother i (Nat.ne_of_gt hgt) hi', hget i hi, if_neg (Nat.not_lt_of_gt hgt),
            if_neg (by omega)]
      | false =>
        refine ⟨v, by simp, hs, hc, fun i hi => ?_⟩
        rcases Nat.lt_trichotomy i k with hlt | rfl | hgt
        · rw [hget i hi, if_pos hlt, if_pos (Nat.lt_succ_of_lt hlt)]
        · rw [hget i hi, if_neg (Nat.lt_irrefl _), if_pos (Nat.lt_succ_self _), hbit,
            Option.map_some, Bool.not_false]
        · rw [hget i hi, if_neg (Nat.not_lt_of_gt hgt), if_neg (by omega)]
  obtain ⟨v, hv, hs, hc, hget⟩ := hread n (Nat.le_refl _)
  refine ⟨v, ?_, hs, hc, fun i hi => by rw [hget i hi, if_pos hi]⟩
  rw [ofNullBitmap?, if_neg (Nat.not_lt_of_le h)]
  exact hv

/-- **A mask is read back from its bitmap.** -/
theorem ofNullBitmap?_packBits (marks : List Bool) :
    ∃ v, ofNullBitmap? (packBits (marks.map (!·))) marks.length marks.length = some v ∧ v.Sound ∧
      v.capacity = marks.length ∧ ∀ i < marks.length, v.get? i = marks[i]? := by
  have hbits : marks.length ≤ 8 * (packBits (marks.map (!·))).length := by
    rw [length_packBits, List.length_map]
    omega
  obtain ⟨v, hv, hs, hc, hget⟩ := ofNullBitmap?_eq hbits marks.length
  refine ⟨v, hv, hs, hc.trans (Nat.max_self _), fun i hi => ?_⟩
  rw [hget i hi, bit?_packBits (by simpa using hi), List.getElem?_map, Option.map_map,
    List.getElem?_eq_getElem hi]
  simp

/-- Where no slot is counted as `NULL`, all are valid. -/
theorem get?_of_countNull? {v : Validity} {n : Nat} (h : v.countNull? n = some 0) {i : Nat}
    (hi : i < n) : v.get? i = some true := by
  rw [countNull?] at h
  split at h
  · rename_i hall
    rw [get?, Option.isNone_iff_eq_none.mp hall]
  · obtain ⟨marks, hmarks, hcount⟩ := Option.map_eq_some_iff.mp h
    obtain ⟨hlen, hget⟩ := firstMarks?_eq_some hmarks
    have hi' : i < marks.length := hlen ▸ hi
    rw [hget i hi, List.getElem?_eq_getElem hi']
    have hne : marks[i] ≠ false := fun hf =>
      List.count_eq_zero.mp hcount (hf ▸ List.getElem_mem hi')
    rw [Bool.of_not_eq_false hne]

/-- Where all slots are counted as `NULL`, all are. -/
theorem get?_of_countNull?_eq {v : Validity} {n : Nat} (h : v.countNull? n = some n) {i : Nat}
    (hi : i < n) : v.get? i = some false := by
  rw [countNull?] at h
  split at h
  · obtain rfl := Option.some.inj h
    cases hi
  · obtain ⟨marks, hmarks, hcount⟩ := Option.map_eq_some_iff.mp h
    obtain ⟨hlen, hget⟩ := firstMarks?_eq_some hmarks
    have hi' : i < marks.length := hlen ▸ hi
    have hall := List.count_eq_length.mp (hcount.trans hlen.symm)
    rw [hget i hi, List.getElem?_eq_getElem hi', ← hall _ (List.getElem_mem hi')]

/-- **Where every slot is `NULL`, all are counted.** -/
theorem countNull?_of_all {v : Validity} (h : v.Sound) {n : Nat} (hn : n ≤ v.capacity)
    (hpos : 0 < n) (hall : ∀ i < n, v.get? i = some false) : v.countNull? n = some n := by
  have hfirst := hall 0 hpos
  rw [get?] at hfirst
  cases hm : v.marks with
  | none =>
    rw [hm] at hfirst
    cases hfirst
  | some marks =>
    have hsize : n ≤ marks.size := h marks hm ▸ Nat.le_trans hn (le_markCount _)
    have hvalid : v.allValid = false := by rw [allValid, hm]; rfl
    have hmarks : v.firstMarks? n = some (marks.toList.take n) := by
      rw [firstMarks?, hm]
      exact if_pos hsize
    obtain ⟨hlen, hget⟩ := firstMarks?_eq_some hmarks
    have hfalse : ∀ b ∈ marks.toList.take n, false = b := by
      intro b hb
      obtain ⟨i, hi, rfl⟩ := List.mem_iff_getElem.mp hb
      have := hget i (hlen ▸ hi)
      rw [hall i (hlen ▸ hi), List.getElem?_eq_getElem hi] at this
      exact Option.some.inj this
    rw [countNull?, hvalid, if_neg Bool.false_ne_true, hmarks, Option.map_some,
      List.count_eq_length.mpr hfalse, hlen]

end Validity
end ColumnStore
