/-
# The header of an encoded segment

| bytes | |
| ---: | --- |
| 1 | tag of the storage class |
| 1 | flags: 1 when there are `NULL` rows, 2 when the body is compressed |
| 1 | tag of the compression scheme |
| 1 | zero |
| 4 | rows |
| 4 | length of the body before compression |
-/

import ColumnStore.Bytes.Basic
import ColumnStore.Compression.Scheme
import ColumnStore.Value.Type

namespace ColumnStore

/-- The header of an encoded segment as it stands in its bytes; the tags may be unknown. -/
structure SegmentHeader where
  storage : UInt8
  hasNulls : Bool
  compressed : Bool
  scheme : UInt8
  reserved : UInt8 := 0
  rows : Nat
  bodyLength : Nat
  deriving DecidableEq, Repr

namespace SegmentHeader

/-- The bytes of a header. -/
def length : Nat := 12

/-- Whether the body of a scheme is compressed by a codec. -/
def isCompressed : Scheme → Bool
  | .lz4 | .zstd => true
  | .uncompressed | .constant => false

def new (storage : StorageClass) (scheme : Scheme) (hasNulls : Bool) (rows bodyLength : Nat) :
    SegmentHeader :=
  { storage := storage.tag, hasNulls, compressed := isCompressed scheme, scheme := scheme.tag, rows,
    bodyLength }

/-- The two flags as a number. -/
def flags (h : SegmentHeader) : Nat := h.hasNulls.toNat + 2 * h.compressed.toNat

/-- The flags with a number, none for a number that has other bits. -/
def ofFlags? (n : Nat) : Option (Bool × Bool) :=
  if n < 4 then some (n.testBit 0, n.testBit 1) else none

def encode (h : SegmentHeader) : Bytes :=
  [h.storage, UInt8.ofNat h.flags, h.scheme, h.reserved] ++ Bytes.ofNat 4 h.rows ++
    Bytes.ofNat 4 h.bodyLength

/-- Reads a header from the front of some bytes, and gives the bytes behind it. -/
def decode? (b : Bytes) : Option (SegmentHeader × Bytes) :=
  match Bytes.split? length b with
  | some (storage :: flags :: scheme :: reserved :: numbers, rest) => do
    let (hasNulls, compressed) ← ofFlags? flags.toNat
    let rows := Bytes.toNat (numbers.take 4)
    let bodyLength := Bytes.toNat (numbers.drop 4)
    pure ({ storage, hasNulls, compressed, scheme, reserved, rows, bodyLength }, rest)
  | _ => none

end SegmentHeader
end ColumnStore
