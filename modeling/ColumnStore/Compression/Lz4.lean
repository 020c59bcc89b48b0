/-
# LZ4 blocks

A block is a series of sequences.  A sequence starts with a token: its high half is the number of
literal bytes, its low half the length of a copy less four.  A half of 15 is continued in bytes that
are added up until one is not 255.  The literals follow, then the offset of the copy in two bytes.
The last sequence ends behind its literals.
-/

import ColumnStore.Compression.Repeats

namespace ColumnStore
namespace Lz4

/-- The shortest copy. -/
def leastCopy : Nat := 4

/-- The bytes that continue a length whose half of the token is full. -/
def continued (n : Nat) : Bytes :=
  if n < 15 then [] else List.replicate ((n - 15) / 255) 255 ++ [UInt8.ofNat ((n - 15) % 255)]

/-- A token with its literals. -/
def literalPart (literals : Bytes) (low : Nat) : Bytes :=
  UInt8.ofNat (16 * min literals.length 15 + min low 15) :: continued literals.length ++ literals

def encodeRepeat (r : Repeat) : Bytes :=
  let low := r.length - leastCopy
  literalPart r.literals low ++ Bytes.ofNat 2 r.offset ++ continued low

/-- The block of a division into repeats. -/
def encode (f : Factoring) : Bytes := f.repeats.flatMap encodeRepeat ++ literalPart f.tail 0

/-- The bytes of a block that stands for the given bytes. -/
def compress (b : Bytes) : Bytes := encode (Factoring.factor 6 b)

/-- A length whose half of the token is `half`, and the bytes behind what continues it. -/
def readLength? (half : Nat) (b : Bytes) : Option (Nat × Bytes) :=
  if half < 15 then some (half, b) else more 15 b
where
  more (sum : Nat) : Bytes → Option (Nat × Bytes)
    | [] => none
    | x :: rest => if x = 255 then more (sum + 255) rest else some (sum + x.toNat, rest)

/-- Writes what a block stands for behind `out`, `limit` bytes in all at most. -/
def decodeFrom (limit : Nat) : (fuel : Nat) → Array UInt8 → Bytes → Option (Array UInt8)
  | _, _, [] => none
  | 0, _, _ => none
  | fuel + 1, out, token :: rest => do
    let (n, rest) ← readLength? (token.toNat / 16) rest
    let (literals, rest) ← Bytes.split? n rest
    if limit < out.size + n then none
    else if rest.isEmpty then some (out ++ literals)
    else
      let (offset, rest) ← Bytes.split? 2 rest
      let (low, rest) ← readLength? (token.toNat % 16) rest
      let out ← Repeat.expand limit out ⟨literals, Bytes.toNat offset, low + leastCopy⟩
      decodeFrom limit fuel out rest

/-- What a block stands for; none if it is malformed or stands for more than `limit` bytes. -/
def decompress? (limit : Nat) (b : Bytes) : Option Bytes :=
  (decodeFrom limit b.length #[] b).map (·.toList)

/-- Eleven bytes that do not repeat, and forty that do. -/
example : decompress? 40 (compress (List.replicate 40 7)) = some (List.replicate 40 7) := by
  decide +kernel

end Lz4
end ColumnStore
