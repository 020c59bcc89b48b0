/-
# Frames

In a log each entry is in a frame: the tag of its kind, the length of its bytes, their CRC-32, and
the bytes.

Frames are read from the front.  Bytes that do not make up a whole frame, or a last frame that is
damaged, are what a crash leaves behind: they are dropped.  A damaged frame with more bytes behind
it is refused.
-/

import ColumnStore.Bytes.Crc32
import ColumnStore.Log.Error

namespace ColumnStore

/-- The header of a frame as it stands in its bytes. -/
structure FrameHeader where
  tag : Nat
  length : Nat
  checksum : Nat
  deriving DecidableEq, Repr

/-- Entries read from a log. -/
structure LogContents where
  /-- Each entry with the place behind it. -/
  entries : List (LogEntry × Nat) := []
  /-- The place behind the last whole entry. -/
  validLength : Nat := 0
  /-- Whether bytes behind it were dropped. -/
  torn : Bool := false
  deriving Repr, BEq, Inhabited

namespace FrameHeader

/-- The bytes of a header. -/
def size : Nat := 9

def encode (h : FrameHeader) : Bytes :=
  Bytes.ofNat 1 h.tag ++ Bytes.ofNat 4 h.length ++ Bytes.ofNat 4 h.checksum

/-- Reads a header, and gives the bytes behind it. -/
def decode? (b : Bytes) : Option (FrameHeader × Bytes) :=
  (Bytes.split? size b).map fun (head, rest) =>
    (⟨Bytes.toNat (head.take 1), Bytes.toNat ((head.drop 1).take 4),
      Bytes.toNat (head.drop 5)⟩, rest)

end FrameHeader

namespace Frame

/-- The frame of an entry. -/
def encode (e : LogEntry) : Except LogError Bytes :=
  let payload := LogEntry.coder.encode e
  if UInt32.size ≤ payload.length then .error (.entryTooLarge payload.length)
  else
    let header : FrameHeader :=
      { tag := e.kind.tag, length := payload.length, checksum := (crc32 payload).toNat }
    .ok (header.encode ++ payload)

/-- The frames of entries, one behind the other. -/
def encodeAll : List LogEntry → Except LogError Bytes
  | [] => .ok []
  | e :: rest => do
    let frame ← encode e
    let frames ← encodeAll rest
    pure (frame ++ frames)

/-- The header and the payload of the first frame, and the bytes behind it; none when the bytes end
inside the frame. -/
def split? (b : Bytes) : Option (FrameHeader × Bytes × Bytes) := do
  let (h, b) ← FrameHeader.decode? b
  let (payload, rest) ← Bytes.split? h.length b
  some (h, payload, rest)

/-- What is left behind a frame is shorter. -/
theorem length_split? {b payload rest : Bytes} {h : FrameHeader}
    (hs : split? b = some (h, payload, rest)) : rest.length < b.length := by
  simp only [split?, FrameHeader.decode?, Option.bind_eq_bind, Option.bind_eq_some_iff,
    Option.map_eq_some_iff, Option.some.injEq, Prod.mk.injEq, Prod.exists] at hs
  obtain ⟨_, b', ⟨head, _, hb, _, rfl⟩, _, _, hp, -, -, rfl⟩ := hs
  obtain ⟨rfl, hh⟩ := Bytes.split?_eq_some.mp hb
  obtain ⟨rfl, -⟩ := Bytes.split?_eq_some.mp hp
  simp only [List.length_append, hh, FrameHeader.size]
  omega

/-- What is wrong with a whole frame before its payload is looked at. -/
def fault? (h : FrameHeader) (payload : Bytes) : Option LogFault :=
  if (LogKind.ofTag? h.tag).isNone then some (.unknownKind h.tag)
  else if (crc32 payload).toNat ≠ h.checksum then some .checksum
  else none

/-- The entry of a whole frame without a fault.  Bytes behind the entry are ignored. -/
def entry (h : FrameHeader) (payload : Bytes) : Except LogFault LogEntry :=
  match LogEntry.coder.decode payload with
  | none => .error .undecodable
  | some (e, _) => if e.kind.tag = h.tag then .ok e else .error (.kindMismatch h.tag e.kind)

/-- Reads all frames in some bytes, of which the first stands at `offset`. -/
def readAll (offset : Nat) (b : Bytes) : Except LogError LogContents :=
  if b.isEmpty then .ok { validLength := offset }
  else
    match _h : split? b with
    | none => .ok { validLength := offset, torn := true }
    | some (header, payload, rest) =>
      match fault? header payload with
      | some fault =>
        if rest.isEmpty then .ok { validLength := offset, torn := true }
        else .error (.corruption offset fault)
      | none =>
        match entry header payload with
        | .error fault => .error (.corruption offset fault)
        | .ok e =>
          let stop := offset + FrameHeader.size + payload.length
          match readAll stop rest with
          | .error cause => .error cause
          | .ok more => .ok { more with entries := (e, stop) :: more.entries }
termination_by b.length
decreasing_by exact length_split? _h

end Frame
end ColumnStore
