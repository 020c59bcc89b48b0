/-
# The files of checkpoints

The name of the file of a checkpoint is read back as its number (`iterationOf?_fileName`), and what
is read as a number is no path through directories (`name_of_iterationOf?`).
-/

import ColumnStore.Checkpoint.Store
import ColumnStore.Proofs.Disk.Names
import Mathlib.Data.String.Basic

namespace ColumnStore
namespace Checkpoint

/-! ## Names -/

theorem toList_drop (s : String) (n : Nat) : ((s.drop n).toString).toList = s.toList.drop n :=
  String.toList_copy_drop

theorem toList_dropEnd (s : String) (n : Nat) :
    ((s.dropEnd n).toString).toList = s.toList.take (s.toList.length - n) := by
  have h := String.Slice.toList_copy_dropEnd (s := s.toSlice) (n := n)
  rwa [String.copy_toSlice] at h

theorem endsWith_iff {s back : String} : s.endsWith back = true ↔ back.toList <:+ s.toList := by
  rw [String.endsWith_eq_endsWith_toSlice, String.Slice.endsWith_string_iff, String.copy_toSlice]

/-- **What is between two texts.** -/
theorem between?_eq_some {front back s middle : String} :
    between? front back s = some middle ↔
      s.toList = front.toList ++ (middle.toList ++ back.toList) := by
  have hdrop (rest : List Char) (h : s.toList = front.toList ++ rest) :
      ((s.drop front.length).toString).toList = rest := by
    rw [toList_drop, h, ← String.length_toList, List.drop_left]
  rw [between?]
  constructor
  · intro h
    split at h
    · rename_i hc
      obtain ⟨hfront, hback⟩ := Bool.and_eq_true_iff.mp hc
      obtain ⟨rest, hrest⟩ := String.startsWith_string_iff.mp hfront
      rw [endsWith_iff, hdrop rest hrest.symm] at hback
      obtain ⟨mid, rfl⟩ := hback
      obtain rfl := Option.some.inj h
      rw [toList_dropEnd, hdrop _ hrest.symm, ← hrest, List.length_append, String.length_toList,
        Nat.add_sub_cancel, List.take_left]
    · cases h
  · intro h
    have hback : ((s.drop front.length).toString).endsWith back = true := by
      rw [endsWith_iff, hdrop _ h]
      exact List.suffix_append _ _
    rw [if_pos (Bool.and_eq_true_iff.mpr
      ⟨String.startsWith_string_iff.mpr ⟨_, h.symm⟩, hback⟩)]
    refine congrArg some (String.toList_injective ?_)
    rw [toList_dropEnd, hdrop _ h, List.length_append, ← String.length_toList (s := back),
      Nat.add_sub_cancel, List.take_left]

theorem digits?_toDigits (n : Nat) : Text.digits? (Nat.toDigits 10 n) = some n := by
  have hne : Nat.toDigits 10 n ≠ [] := List.ne_nil_of_length_pos Nat.length_toDigits_pos
  have hall : (Nat.toDigits 10 n).all Char.isDigit = true :=
    List.all_eq_true.mpr fun c hc => Nat.isDigit_of_mem_toDigits (by decide) (by decide) hc
  rw [Text.digits?, hall, List.isEmpty_eq_false_iff.mpr hne]
  exact congrArg some (Nat.ofDigitChars_toDigits (by decide) (by decide))

/-- Zeros in front of digits make no difference. -/
theorem digits?_zeros (k : Nat) {cs : List Char} {n : Nat} (h : Text.digits? cs = some n) :
    Text.digits? (List.replicate k '0' ++ cs) = some n := by
  induction k with
  | zero => exact h
  | succ k ih =>
    unfold Text.digits? at ih ⊢
    split at ih
    · cases ih
    · rename_i hc
      simp only [Bool.or_eq_true, not_or, Bool.not_eq_true] at hc
      rw [List.replicate_succ, List.cons_append, if_neg, List.foldl_cons]
      · exact ih
      · simp only [List.isEmpty_cons, Bool.false_or, List.all_cons, Bool.not_eq_true]
        rw [Bool.not_eq_false'] at hc ⊢
        rw [hc.2]
        decide

/-- The digits of a number, at least eight. -/
def padded (n : Nat) : List Char :=
  List.replicate (8 - (Nat.toDigits 10 n).length) '0' ++ Nat.toDigits 10 n

theorem toList_fileName (n : Nat) :
    (fileName n).toList = namePrefix.toList ++ (padded n ++ nameSuffix.toList) := by
  simp [fileName, padded, ← String.length_toList]

/-- **The number in the name of a file.** -/
theorem iterationOf?_fileName {n : Nat} (h : n < UInt64.size) :
    iterationOf? (fileName n) = some n := by
  have hb : between? namePrefix nameSuffix (fileName n) = some (String.ofList (padded n)) :=
    between?_eq_some.mpr (by rw [toList_fileName, String.toList_ofList])
  have hd : Text.digits? (padded n) = some n := digits?_zeros _ (digits?_toDigits n)
  rw [iterationOf?, hb]
  change Text.natBelow? UInt64.size (String.ofList (padded n)) = some n
  rw [Text.natBelow?, String.toList_ofList]
  have hsign : ∀ cs, padded n ≠ '+' :: cs := by
    intro cs hcs
    rw [hcs] at hd
    simp [Text.digits?] at hd
  split
  · rename_i cs hcs
    exact absurd hcs (hsign cs)
  · simp [hd, h]

theorem digit_of_digits? {cs : List Char} {n : Nat} (h : Text.digits? cs = some n) :
    ∀ c ∈ cs, c.isDigit = true := by
  unfold Text.digits? at h
  split at h
  · cases h
  · rename_i hc
    simp only [Bool.or_eq_true, not_or, Bool.not_eq_true] at hc
    rw [Bool.not_eq_false'] at hc
    exact List.all_eq_true.mp hc.2

/-- What is read as a number is made of digits behind a sign. -/
theorem chars_of_natBelow? {bound n : Nat} {s : String} (h : Text.natBelow? bound s = some n) :
    ∀ c ∈ s.toList, c.isDigit = true ∨ c = '+' := by
  rw [Text.natBelow?] at h
  split at h
  · rename_i cs hcs
    obtain ⟨m, hm, -⟩ := Option.bind_eq_some_iff.mp h
    rw [hcs]
    intro c hc
    rcases List.mem_cons.mp hc with rfl | hc
    · exact Or.inr rfl
    · exact Or.inl (digit_of_digits? hm c hc)
  · obtain ⟨m, hm, -⟩ := Option.bind_eq_some_iff.mp h
    exact fun c hc => Or.inl (digit_of_digits? hm c hc)

/-- The characters in the names of files of checkpoints. -/
theorem chars_of_iterationOf? {name : String} {n : Nat} (h : iterationOf? name = some n) :
    ∀ c ∈ name.toList, c ∈ (namePrefix ++ nameSuffix).toList ∨ c.isDigit = true ∨ c = '+' := by
  obtain ⟨middle, hm, hn⟩ := Option.bind_eq_some_iff.mp h
  rw [between?_eq_some] at hm
  intro c hc
  rw [hm] at hc
  rw [String.toList_append]
  rcases List.mem_append.mp hc with hc | hc
  · exact Or.inl (List.mem_append_left _ hc)
  · rcases List.mem_append.mp hc with hc | hc
    · exact Or.inr (chars_of_natBelow? hn c hc)
    · exact Or.inl (List.mem_append_right _ hc)

/-- **What is read as a number is no path through directories,** and none of the other names in the
data directory. -/
theorem name_of_iterationOf? {name : String} {n : Nat} (h : iterationOf? name = some n) :
    '/' ∉ name.toList ∧ '\x00' ∉ name.toList ∧ (name ≠ "" ∧ name ≠ "." ∧ name ≠ "..") ∧
      name ≠ Manifest.path ∧ name ≠ Manifest.draftPath ∧ name ≠ Database.logDirectory := by
  have hchars := chars_of_iterationOf? h
  have hother (other : String) (ho : iterationOf? other = none) : name ≠ other := by
    rintro rfl
    rw [ho] at h
    cases h
  have hnot (c : Char) (hc : c ∉ (namePrefix ++ nameSuffix).toList) (hd : c.isDigit = false)
      (hp : c ≠ '+') : c ∉ name.toList := fun hm => by
    rcases hchars c hm with h' | h' | h'
    · exact hc h'
    · rw [hd] at h'
      cases h'
    · exact hp h'
  exact ⟨hnot '/' (by decide) (by decide) (by decide), hnot '\x00' (by decide) (by decide) (by decide),
    ⟨hother _ (by decide +kernel), hother _ (by decide +kernel), hother _ (by decide +kernel)⟩,
    hother _ (by decide +kernel), hother _ (by decide +kernel), hother _ (by decide +kernel)⟩

theorem utf8Len_of_digits {cs : List Char} (h : ∀ c ∈ cs, c.isDigit = true) :
    String.utf8Len cs = cs.length := by
  induction cs with
  | nil => rfl
  | cons c cs ih =>
    have hc := h c List.mem_cons_self
    have hsize : c.utf8Size = 1 := by
      simp only [Char.isDigit, Bool.and_eq_true, decide_eq_true_eq] at hc
      rw [Char.utf8Size, if_pos]
      exact UInt32.le_trans hc.2 (by decide)
    rw [String.utf8Len, ih fun c hm => h c (List.mem_cons_of_mem _ hm), hsize, List.length_cons]

/-- **The name of the file of a checkpoint is plain.** -/
theorem plain_fileName {n : Nat} (h : n < UInt64.size) : Disk.Plain (fileName n) := by
  obtain ⟨hslash, hnul, hnamed, -⟩ := name_of_iterationOf? (iterationOf?_fileName h)
  refine ⟨hslash, hnul, hnamed, ?_⟩
  have hdigits : ∀ c ∈ padded n, c.isDigit = true := by
    intro c hc
    rcases List.mem_append.mp hc with hc | hc
    · rw [List.eq_of_mem_replicate hc]
      decide
    · exact Nat.isDigit_of_mem_toDigits (by decide) (by decide) hc
  have hlen : (Nat.toDigits 10 n).length ≤ 20 :=
    (Nat.length_toDigits_le_iff (by decide) (by decide)).mpr (Nat.lt_trans h (by decide))
  have hname : fileName n = namePrefix ++ (String.ofList (padded n) ++ nameSuffix) :=
    String.toList_injective (by
      rw [toList_fileName, String.toList_append, String.toList_append, String.toList_ofList])
  have hsize : (String.ofList (padded n)).utf8ByteSize ≤ 28 := by
    rw [String.utf8ByteSize_ofList, utf8Len_of_digits hdigits, padded, List.length_append,
      List.length_replicate]
    omega
  have hprefix : namePrefix.utf8ByteSize = 11 := by decide +kernel
  have hsuffix : nameSuffix.utf8ByteSize = 3 := by decide +kernel
  rw [hname, String.utf8ByteSize_append, String.utf8ByteSize_append, hprefix, hsuffix,
    Disk.longestName]
  omega

/-- A name has no more characters than bytes. -/
theorem length_le_of_plain {name : String} (h : Disk.Plain name) :
    name.toList.length ≤ Disk.longestName := by
  have hle : ∀ cs : List Char, cs.length ≤ String.utf8Len cs := by
    intro cs
    induction cs with
    | nil => exact Nat.le_refl _
    | cons c rest ih =>
      rw [String.utf8Len, List.length_cons]
      exact Nat.add_le_add ih c.utf8Size_pos
  refine Nat.le_trans (hle _) ?_
  rw [← String.utf8ByteSize_ofList, String.ofList_toList]
  exact h.short

theorem plain_draft : Disk.Plain Manifest.draftPath := by decide +kernel

theorem plain_manifest : Disk.Plain Manifest.path := by decide +kernel

end Checkpoint
end ColumnStore
