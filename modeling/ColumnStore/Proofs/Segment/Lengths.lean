/-
# What is too large to be stored

The bytes of a segment name their lengths in 32 bits.  Nothing else stands in the way of a vector
that there is room for: if it is not encoded, then one of its lengths is too large
(`SegmentImage.encodeBy_refused`).
-/

import ColumnStore.Proofs.Column.Values
import ColumnStore.Proofs.Segment.RoundTrip

namespace ColumnStore

section

variable {α β : Type}

/-- A result that is refused only where something is too large. -/
def OnlyTooLarge (r : Except StorageError α) : Prop :=
  ∀ e, r = .error e → ∃ what n, e = .tooLarge what n

theorem onlyTooLarge_ok (a : α) : OnlyTooLarge (.ok a) := fun _ h => nomatch h

/-- **A chain is refused only by one of its parts.** -/
theorem OnlyTooLarge.bind {x : Except StorageError α} {f : α → Except StorageError β}
    (h : OnlyTooLarge x) (hf : ∀ a, x = .ok a → OnlyTooLarge (f a)) : OnlyTooLarge (x >>= f) := by
  cases x with
  | error e =>
    rintro _ ⟨⟩
    exact h e rfl
  | ok a => exact hf a rfl

end

namespace SegmentImage

variable {v : ValueVector} {count : Nat}

theorem onlyTooLarge_length32 (what : String) (n : Nat) : OnlyTooLarge (length32 what n) := by
  unfold length32
  split
  · exact onlyTooLarge_ok n
  · rintro _ ⟨⟩
    exact ⟨what, n, rfl⟩

theorem onlyTooLarge_constantBody (x : Scalar) : OnlyTooLarge (constantBody x) := by
  cases x
  case varchar s => exact (onlyTooLarge_length32 _ _).bind fun _ _ => onlyTooLarge_ok _
  all_goals exact onlyTooLarge_ok _

theorem onlyTooLarge_textEnds (start : Nat) (texts : List Bytes) :
    OnlyTooLarge (textEnds start texts) := by
  induction texts generalizing start with
  | nil => exact onlyTooLarge_ok _
  | cons text rest ih =>
    exact (onlyTooLarge_length32 _ _).bind fun stop _ => (ih stop).bind fun _ _ => onlyTooLarge_ok _

theorem onlyTooLarge_checkRows {bytes : Nat} (h : bytes ≤ Bytes.longest) :
    OnlyTooLarge (checkRows count bytes) := by
  unfold checkRows
  rw [if_neg (Nat.not_lt_of_le h)]
  exact (onlyTooLarge_length32 _ _).bind fun _ _ => onlyTooLarge_ok _

/-- A value is stored in no more bytes than it has in memory. -/
theorem width_le_slotBytes (t : ColumnType) : t.storage.width?.getD 0 ≤ ValueVector.slotBytes t := by
  cases t with
  | list item => exact Nat.zero_le _
  | _ => decide

theorem onlyTooLarge_plainBody (h : v.Sound) (hc : count ≤ v.capacity)
    (hroom : ValueVector.hasRoom v.type v.capacity = true) : OnlyTooLarge (plainBody v count) := by
  have hnested := isNested_of_sound h
  have hroom : ValueVector.slotBytes v.type * v.capacity ≤ Bytes.longest := by
    simpa [ValueVector.hasRoom] using hroom
  have hbytes : count * v.type.storage.width?.getD 0 ≤ Bytes.longest := by
    refine Nat.le_trans ?_ hroom
    rw [Nat.mul_comm]
    exact Nat.mul_le_mul (width_le_slotBytes _) hc
  unfold plainBody
  cases ht : v.type
  case list => rw [ht] at hnested; cases hnested
  case varchar =>
    have hleast : 4 ≤ Bytes.longest := by decide
    have hends : 4 * (count + 1) ≤ Bytes.longest := by
      rw [ht] at hroom
      change 24 * v.capacity ≤ _ at hroom
      omega
    exact (onlyTooLarge_checkRows hends).bind fun _ _ =>
      (onlyTooLarge_textEnds _ _).bind fun _ _ => onlyTooLarge_ok _
  all_goals
    rw [ht] at hbytes
    exact (onlyTooLarge_checkRows hbytes).bind fun _ _ => onlyTooLarge_ok _

theorem onlyTooLarge_body (h : v.Sound) (hc : count ≤ v.capacity)
    (hroom : ValueVector.hasRoom v.type v.capacity = true) (codec : Option Codec) :
    OnlyTooLarge (body v count codec) := by
  obtain ⟨u, hu⟩ := uniformity_isOk h hc
  unfold body
  rw [isNested_of_sound h, if_neg Bool.false_ne_true, hu]
  cases u with
  | allNull => exact onlyTooLarge_ok _
  | same x => exact (onlyTooLarge_constantBody x).bind fun _ _ => onlyTooLarge_ok _
  | mixed => exact (onlyTooLarge_plainBody h hc hroom).bind fun _ _ => onlyTooLarge_ok _

/-- **Slots that there is room for are encoded,** unless a length of theirs is too large. -/
theorem encodeBy_refused (h : v.Sound) (hc : count ≤ v.capacity)
    (hroom : ValueVector.hasRoom v.type v.capacity = true) (codec : Option Codec) :
    OnlyTooLarge (encodeBy codec v count) := by
  obtain ⟨bitmap, hbitmap⟩ := nullBitmap?_isSome h hc
  unfold encodeBy
  rw [hbitmap]
  exact (onlyTooLarge_body h hc hroom codec).bind fun _ _ =>
    (onlyTooLarge_length32 _ _).bind fun _ _ =>
      (onlyTooLarge_length32 _ _).bind fun _ _ => onlyTooLarge_ok _

end SegmentImage

namespace Segment

/-- A segment of which the values cannot be stored, for a length of theirs that is too large. -/
def Overlong (s : Segment) (preferred : Scheme) : Prop :=
  ∃ what n, s.toSealed preferred = .error (.tooLarge what n)

/-- **A segment that is not sealed** is too long to be. -/
theorem overlong_of_refused {s : Segment} {v : ValueVector} (h : s.Fills v)
    (hroom : ValueVector.hasRoom s.type s.capacity = true) {preferred : Scheme} {e : StorageError}
    (he : s.toSealed preferred = .error e) : s.Overlong preferred := by
  obtain ⟨hv, htype, hcapacity, hle⟩ := h.vector
  have hencode : OnlyTooLarge (s.toSealed preferred) := by
    unfold toSealed
    rw [h.data_eq]
    refine OnlyTooLarge.bind ?_ fun _ _ => onlyTooLarge_ok _
    exact SegmentImage.encodeBy_refused hv (hcapacity ▸ hle) (by rw [htype, hcapacity, hroom]) _
  obtain ⟨what, n, rfl⟩ := hencode e he
  exact ⟨what, n, he⟩

/-- **A segment that is too long to be sealed** has more rows or a longer body than 32 bits can tell. -/
theorem Overlong.large {s : Segment} {v : ValueVector} (hf : s.Fills v) {preferred : Scheme}
    (h : s.Overlong preferred) :
    UInt32.size ≤ s.count ∨ UInt32.size ≤ SegmentImage.bodyLength v s.count := by
  by_contra hshort
  rw [not_or, Nat.not_le, Nat.not_le] at hshort
  obtain ⟨hv, -, hcapacity, hle⟩ := hf.vector
  obtain ⟨what, n, hlong⟩ := h
  obtain ⟨image, himage⟩ := SegmentImage.encodeBy_ok hv (hcapacity ▸ hle) hshort.1 hshort.2
    (Codec.ofScheme? preferred)
  have hencode : SegmentImage.encode v s.count preferred = .ok image := himage
  rw [toSealed, hf.data_eq] at hlong
  simp only [hencode, ok_bind] at hlong
  cases hlong

end Segment
end ColumnStore
