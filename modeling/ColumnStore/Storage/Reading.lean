/-
# Reading stored segments

The values of a segment in a block file are read when they are first asked for, and kept.  A
`Source` says what the blocks hold and which values are known already; a `Reading` is the result of
a computation that reads from a source, with the values that it had to decode.  The source stays the
same while a computation runs, so results do not depend on what is kept on the way.
-/

import ColumnStore.Disk.Blocks
import ColumnStore.Segment.Image

namespace ColumnStore

/-- The values of a segment in a block file. -/
structure StoredValues where
  blocks : BlockFile
  pointer : BlockPointer
  type : ColumnType
  rows : Nat
  /-- The numbers of the table, of the column in it and of the segment in that.  Segments may lie in
  the same blocks, and each is read for itself. -/
  place : List Nat
  deriving DecidableEq, Repr

/-- What can be read: the bytes in blocks, and values that were decoded before. -/
structure Source where
  bytes : StoredValues → Except StorageError Bytes
  known : StoredValues → Option ValueVector

/-- Values decoded from blocks. -/
abbrev Decoded := List (StoredValues × ValueVector)

namespace Source

/-- The blocks on a disk, and values that were decoded before. -/
def ofDisk (d : Disk) (decoded : Decoded) : Source where
  bytes s := s.blocks.read d s.pointer
  known s := decoded.lookup s

/-- The values of a stored segment; there must be as many as the segment has rows. -/
def load (source : Source) (s : StoredValues) : Except StorageError ValueVector :=
  match source.known s with
  | some v => .ok v
  | none => do
    let b ← source.bytes s
    let v ← SegmentImage.decode b s.type
    if v.capacity ≠ s.rows then SegmentImage.damaged (.decodedRows v.capacity s.rows)
    pure v

end Source

/-- The result of a computation, and what it decoded. -/
structure Reading (α : Type) where
  result : Except StorageError α
  decoded : Decoded

namespace Reading

variable {α β : Type}

instance : Monad Reading where
  pure a := ⟨.ok a, []⟩
  bind x f :=
    match x.result with
    | .error e => ⟨.error e, x.decoded⟩
    | .ok a => ⟨(f a).result, x.decoded ++ (f a).decoded⟩

/-- A result that took no reading. -/
def of (r : Except StorageError α) : Reading α := ⟨r, []⟩

/-- A refusal. -/
def fail (e : StorageError) : Reading α := of (.error e)

/-- A reading that does not fail, but gives the refusal as its result. -/
def attempt (x : Reading α) : Reading (Except StorageError α) := ⟨.ok x.result, x.decoded⟩

/-- Reads the values of a stored segment. -/
def load (source : Source) (s : StoredValues) : Reading ValueVector :=
  match source.load s with
  | .ok v => ⟨.ok v, [(s, v)]⟩
  | .error e => ⟨.error e, []⟩

@[simp] theorem result_pure (a : α) : (pure a : Reading α).result = .ok a := rfl

/-- **Results are combined as if nothing was kept.** -/
@[simp] theorem result_bind (x : Reading α) (f : α → Reading β) :
    (x >>= f).result = x.result >>= fun a => (f a).result := by
  simp only [bind, Except.bind]
  cases x.result <;> rfl

@[simp] theorem result_of (r : Except StorageError α) : (of r).result = r := rfl

@[simp] theorem result_load (source : Source) (s : StoredValues) :
    (load source s).result = source.load s := by
  unfold load
  cases source.load s <;> rfl

end Reading
end ColumnStore
