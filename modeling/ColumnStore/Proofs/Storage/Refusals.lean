/-
# Refusals

An operation is refused when what it asks for does not fit: a type, a position, a number of columns,
or a row that somebody else writes to.  Damage that is found while stored values are read is none
(`Column.unrefused_value`).
-/

import ColumnStore.Proofs.Column.Values
import ColumnStore.Proofs.Segment.Decoding
import ColumnStore.Transaction.Error

namespace ColumnStore

/-- Whether something else was asked for than there is room for. -/
def VectorError.isRefusal : VectorError → Bool
  | .typeMismatch .. | .indexOutOfBounds .. | .columnCount .. => true
  | .capacityExceeded _ | .outOfRange => false

/-- Whether something was asked for that a table does not have. -/
def StorageError.isRefusal : StorageError → Bool
  | .columnOutOfRange .. | .rowOutOfRange .. => true
  | .vector cause => cause.isRefusal
  | _ => false

/-- Whether an operation was refused for what it asks, and not because something is wrong with the
stored data, the records or the state of the transaction. -/
def TransactionError.isRefusal : TransactionError → Bool
  | .writeConflict .. => true
  | .storage cause => cause.isRefusal
  | .vector cause => cause.isRefusal
  | _ => false

/-- A result that is not a refusal, though it may be a failure. -/
def Unrefused {α : Type} (r : Except StorageError α) : Prop :=
  ∀ e, r = .error e → e.isRefusal = false

section Unrefused

variable {α β : Type}

theorem unrefused_ok (a : α) : Unrefused (.ok a) := fun _ h => nomatch h

theorem unrefused_error {e : StorageError} (h : e.isRefusal = false) :
    Unrefused (.error e : Except StorageError α) := by
  rintro _ ⟨⟩
  exact h

/-- **A chain is refused only by one of its parts.** -/
theorem Unrefused.bind {x : Except StorageError α} {f : α → Except StorageError β}
    (h : Unrefused x) (hf : ∀ a, Unrefused (f a)) : Unrefused (x >>= f) := by
  cases x with
  | error e => exact unrefused_error (h e rfl)
  | ok a => exact hf a

end Unrefused

/-! ## Reading -/

namespace SegmentImage

variable {α : Type} (t : ColumnType)

theorem unrefused_damaged (fault : Fault) : Unrefused (damaged fault : Except StorageError α) :=
  unrefused_error rfl

/-- Damage that is found stops what would come next. -/
theorem unrefused_stop {β : Type} (fault : Fault) (f : β → Except StorageError α) :
    Unrefused (damaged fault >>= f) := unrefused_error rfl

/-- What decoding comes to is no refusal. -/
theorem Comes.unrefused {P : α → Prop} {r : Except StorageError α} (h : Comes t P r) :
    Unrefused r := by
  obtain ⟨a, rfl, -⟩ | ⟨fault, rfl⟩ | ⟨-, rfl⟩ := h
  · exact unrefused_ok a
  · exact unrefused_damaged fault
  · exact unrefused_error rfl

/-- **Bytes that are no segment** are damaged, whatever is wrong with them. -/
theorem unrefused_decode (b : Bytes) : Unrefused (decode b t) := (comes_decodeBy _ b t).unrefused

end SegmentImage

theorem BlockFile.unrefused_read (f : BlockFile) (d : Disk) (p : BlockPointer) :
    Unrefused (f.read d p) := by
  unfold read
  dsimp only
  split
  · exact unrefused_error rfl
  split
  · exact unrefused_error rfl
  split
  · exact unrefused_error rfl
  split
  · exact unrefused_error rfl
  split
  · exact unrefused_error rfl
  split
  · exact unrefused_ok _
  · exact unrefused_error rfl

/-- **What is on a disk can be read or is damaged.** -/
theorem Source.unrefused_load (d : Disk) (decoded : Decoded) (s : StoredValues) :
    Unrefused ((ofDisk d decoded).load s) := by
  unfold load
  split
  · exact unrefused_ok _
  · refine (BlockFile.unrefused_read _ _ _).bind fun b =>
      (SegmentImage.unrefused_decode _ b).bind fun v => ?_
    dsimp only
    split
    · exact SegmentImage.unrefused_stop _ _
    · exact unrefused_ok _

variable {d : Disk} {decoded : Decoded}

theorem Segment.unrefused_under (s : Segment) (i : Nat) :
    Unrefused (s.under (.ofDisk d decoded) i) := by
  refine Unrefused.bind ?_ fun v => ?_
  · unfold base
    split
    · exact unrefused_ok _
    · exact unrefused_ok _
    · rw [Reading.result_load]
      exact Source.unrefused_load d decoded _
  · split
    · exact unrefused_ok _
    · exact unrefused_error rfl

/-- **A row that is there is not refused to a reader,** though it may be damaged. -/
theorem Column.unrefused_value {c : Column} (h : c.Sound) {row : Nat} (hrow : row < c.rows)
    (s : Snapshot) : Unrefused (c.value (.ofDisk d decoded) row s) := by
  obtain ⟨i, g, hl, -⟩ := locate_of_lt h hrow
  unfold value readOver
  cases seen? (c.chain row) s with
  | some x => exact unrefused_ok x
  | none =>
    rw [under, hl]
    exact g.unrefused_under _

end ColumnStore
