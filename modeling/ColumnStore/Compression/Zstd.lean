/-
# Zstandard frames

A frame has a header with the decoded length and a series of blocks: bytes as they are, one byte
repeated, or literals with copies.  Frames may follow each other.

Of the blocks with copies those are read whose literals are stored as they are or as one repeated
byte and whose copies all use the same codes, so that only the extra bits of the codes are stored.
The frames written here have one copy in such a block.  Frames with a checksum or a dictionary are
refused, and frames that stand for nothing are passed over.

The extra bits form one number below a leading one bit.  They are read from the top: of each copy
first those of the offset, then those of its length, then those of the number of literals in front
of it.
-/

import ColumnStore.Compression.Repeats

namespace ColumnStore
namespace Zstd

/-- The first four bytes of a frame. -/
def magic : Bytes := [0x28, 0xB5, 0x2F, 0xFD]

/-- The largest number of bytes that a block may stand for. -/
def blockLimit : Nat := 131072

/-- The largest length of a frame that is read. -/
def frameLimit : Nat := 0x8000000

/-- The largest window of a frame that is read block by block. -/
def windowLimit : Nat := 0x8000001

/-- The largest window that a frame can have. -/
def longestWindow : Nat := 0xFFFFFFFF

/-- The first length and the extra bits of each code for the number of literals. -/
def literalCodes : List (Nat × Nat) :=
  (List.range 16).map (·, 0) ++
    [(16, 1), (18, 1), (20, 1), (22, 1), (24, 2), (28, 2), (32, 3), (40, 3), (48, 4), (64, 6),
      (128, 7), (256, 8), (512, 9), (1024, 10), (2048, 11), (4096, 12), (8192, 13), (16384, 14),
      (32768, 15), (65536, 16)]

/-- The first length and the extra bits of each code for the length of a copy. -/
def copyCodes : List (Nat × Nat) :=
  (List.range 32).map (· + 3, 0) ++
    [(35, 1), (37, 1), (39, 1), (41, 1), (43, 2), (47, 2), (51, 3), (59, 3), (67, 4), (83, 4),
      (99, 5), (131, 7), (259, 8), (515, 9), (1027, 10), (2051, 11), (4099, 12), (8195, 13),
      (16387, 14), (32771, 15), (65539, 16)]

/-- The code of a length, its extra bits and how many they are. -/
def encodeLength (codes : List (Nat × Nat)) (n : Nat) : Nat × Nat × Nat :=
  let code := codes.countP (·.1 ≤ n) - 1
  match codes[code]? with
  | some (first, width) => (code, n - first, width)
  | none => (0, 0, 0)

/-- A block of a frame that is written. -/
inductive Block where
  | raw (bytes : Bytes)
  | copy (r : Repeat)

/-- The header of literals that are stored as they are. -/
def literalsHeader (n : Nat) : Bytes :=
  if n < 32 then [UInt8.ofNat (8 * n)]
  else if n < 4096 then Bytes.ofNat 2 (16 * n + 4)
  else Bytes.ofNat 3 (16 * n + 12)

/-- The content of a block with one copy. -/
def encodeCopy (r : Repeat) : Bytes :=
  let (lCode, lBits, lWidth) := encodeLength literalCodes r.literals.length
  let (cCode, cBits, cWidth) := encodeLength copyCodes r.length
  let oWidth := Nat.log2 (r.offset + 3)
  let bits := ((r.offset + 3) <<< cWidth + cBits) <<< lWidth + lBits
  let codes := [1, 0x54, UInt8.ofNat lCode, UInt8.ofNat oWidth, UInt8.ofNat cCode]
  literalsHeader r.literals.length ++ r.literals ++ codes ++
    Bytes.ofNat ((oWidth + cWidth + lWidth) / 8 + 1) bits

/-- A block behind its header of three bytes: the last-block flag, the kind and the length. -/
def encodeBlock (last : Bool) (b : Block) : Bytes :=
  let (kind, content) := match b with
    | .raw bytes => (0, bytes)
    | .copy r => (2, encodeCopy r)
  Bytes.ofNat 3 (last.toNat + 2 * kind + 8 * content.length) ++ content

def encodeBlocks : List Block → Bytes
  | [] => encodeBlock true (.raw [])
  | [b] => encodeBlock true b
  | b :: rest => encodeBlock false b ++ encodeBlocks rest

/-- Raw blocks of at most `2 ^ 15` bytes. -/
def rawBlocks (b : Bytes) : List Block :=
  match b with
  | [] => []
  | x :: rest => .raw (b.take 32768) :: rawBlocks ((x :: rest).drop 32768)
termination_by b.length
decreasing_by rw [List.length_drop, List.length_cons]; omega

/-- The blocks of a repeat: one, after raw blocks when it has too many literals for one. -/
def blocksOf (r : Repeat) : List Block :=
  if r.literals.length ≤ 32768 then [.copy r]
  else rawBlocks r.literals.dropLast ++ [.copy { r with literals := r.literals.getLast?.toList }]

/-- A frame that stands for the given bytes: one segment, its length in four bytes. -/
def compress (b : Bytes) : Bytes :=
  let f := Factoring.factor 32 b
  magic ++ [0xA0] ++ Bytes.ofNat 4 b.length ++
    encodeBlocks (f.repeats.flatMap blocksOf ++ rawBlocks f.tail)

/-- The top `width` of `have` bits, and the rest. -/
def topBits? (width : Nat) : Nat × Nat → Option (Nat × (Nat × Nat))
  | (size, bits) =>
    if size < width then none
    else some (bits >>> (size - width), (size - width, bits % (1 <<< (size - width))))

/-- Reads `n` copies with the same three codes and gives them with the literals that are left. -/
def readCopies (lCode oCode cCode : Nat) :
    (n : Nat) → (literals : Bytes) → Nat × Nat → Option Factoring
  | 0, literals, (size, _) => if size = 0 then some ⟨[], literals⟩ else none
  | n + 1, literals, bits => do
    let (lFirst, lWidth) ← literalCodes[lCode]?
    let (cFirst, cWidth) ← copyCodes[cCode]?
    let (o, bits) ← topBits? oCode bits
    let (c, bits) ← topBits? cWidth bits
    let (l, bits) ← topBits? lWidth bits
    let offset := (1 <<< oCode) + o
    let (own, literals) ← Bytes.split? (lFirst + l) literals
    if offset ≤ 3 then none
    else
      let f ← readCopies lCode oCode cCode n literals bits
      some ⟨⟨own, offset - 3, cFirst + c⟩ :: f.repeats, f.tail⟩

/-- Reads the copies of a block behind its literals. -/
def readSequences? (literals : Bytes) (b : Bytes) : Option Factoring :=
  match b with
  | [0] => some ⟨[], literals⟩
  | n :: 0x54 :: lCode :: oCode :: cCode :: bits =>
    let number := Bytes.toNat bits
    if n = 0 || 128 ≤ n || bits.getLast?.getD 0 = 0 then none
    else
      let size := Nat.log2 number
      readCopies lCode.toNat oCode.toNat cCode.toNat n.toNat literals (size, number - (1 <<< size))
  | _ => none

/-- Reads the content of a block with literals and copies. -/
def readCompressed? (b : Bytes) : Option Factoring := do
  let first ← b.head?
  let wide := first.toNat / 4 % 4
  let headerLength := if wide % 2 = 0 then 1 else if wide = 1 then 2 else 3
  let (header, rest) ← Bytes.split? headerLength b
  let n := Bytes.toNat header / (if headerLength = 1 then 8 else 16)
  match first.toNat % 4 with
  | 0 =>
    let (literals, rest) ← Bytes.split? n rest
    readSequences? literals rest
  | 1 =>
    let (byte, rest) ← Bytes.split? 1 rest
    readSequences? (List.replicate n (byte.getD 0 0)) rest
  | _ => none

/-- The bytes that copies may reach back, as a descriptor of one byte has them. -/
def windowSize (descriptor : Nat) : Nat :=
  let unit := 1 <<< (descriptor / 8 + 10)
  unit + unit / 8 * (descriptor % 8)

/-- What the header of a frame says of its blocks. -/
structure FrameHeader where
  /-- The number of bytes that the frame stands for, if it is given. -/
  length? : Option Nat
  /-- How far copies may reach back. -/
  window : Nat
  deriving DecidableEq, Repr

namespace FrameHeader

/-- A frame of a given length of at most 8192 bytes is read as a whole, and a longer one block by
block.  Blocks of a short frame have to be as long as its header says and nothing else. -/
def isShort (h : FrameHeader) : Bool := h.length?.any (· ≤ 8192)

/-- The most bytes of a block and of what it stands for. -/
def blockRoom (h : FrameHeader) : Nat := min h.window blockLimit

/-- The most bytes that blocks may stand for.  A frame that is much longer than its window is read
without regard to its length. -/
def room (h : FrameHeader) : Nat :=
  match h.length? with
  | some n => if h.isShort || n ≤ h.window + 2 * h.blockRoom + 64 then n else frameLimit
  | none => frameLimit

/-- Whether a block of `stored` bytes may stand for `n` bytes. -/
def allows (h : FrameHeader) (stored n : Nat) : Bool :=
  h.isShort || (stored ≤ h.blockRoom && n ≤ h.blockRoom)

/-- Whether a frame may end with a block of `stored` bytes when it stands for `n` bytes.  An empty
block at the end of a frame that is not short ends it wherever it stands. -/
def mayEnd (h : FrameHeader) (stored n : Nat) : Bool :=
  (!h.isShort && stored = 0) || h.length?.all (· = n)

/-- Reads the header of a frame behind its first four bytes; then the bytes behind it.  The number
of a dictionary may be there if it is zero, which stands for none, and a length of all ones for one
that is not given. -/
def read? (b : Bytes) : Option (FrameHeader × Bytes) := do
  let (descriptor, rest) ← Bytes.split? 1 b
  let d := (descriptor.getD 0 0).toNat
  -- no checksum, the reserved bit clear
  if d / 4 % 4 ≠ 0 then none
  else
    let single := d / 32 % 2 = 1
    let (window, rest) ← Bytes.split? (if single then 0 else 1) rest
    let (dictionary, rest) ← Bytes.split? (if d % 4 = 3 then 4 else d % 4) rest
    let width := match d / 64 with
      | 0 => if single then 1 else 0
      | 1 => 2
      | 2 => 4
      | _ => 8
    let (length, rest) ← Bytes.split? width rest
    let length := Bytes.toNat length + if width = 2 then 256 else 0
    let h : FrameHeader := {
      length? := if width = 0 || length = UInt64.size - 1 then none else some length
      window := if single then length else windowSize (Bytes.toNat window) }
    let mostWindow := if h.isShort then longestWindow else windowLimit
    if mostWindow < h.window || Bytes.toNat dictionary ≠ 0 then none else some (h, rest)

end FrameHeader

/-- Reads the content of a block of a kind, which stands for `n` bytes if it repeats one. -/
def readBlock? (h : FrameHeader) (kind n : Nat) (content : Bytes) : Option Factoring :=
  match kind with
  | 0 => some ⟨[], content⟩
  | 1 => some ⟨[], List.replicate n (content.getD 0 0)⟩
  | 2 =>
    if content.isEmpty && !h.isShort then some ⟨[], []⟩
    else if h.blockRoom < content.length then none
    else readCompressed? content
  | _ => none

/-- Reads the blocks of a frame and gives what they stand for, behind `out`, and the bytes behind
the last block. -/
def readBlocks (h : FrameHeader) : (fuel : Nat) → Array UInt8 → Bytes → Option (Array UInt8 × Bytes)
  | 0, _, _ => none
  | fuel + 1, out, b => do
    let (header, rest) ← Bytes.split? 3 b
    let header := Bytes.toNat header
    let n := header / 8
    let kind := header / 2 % 4
    let stored := if kind = 1 then 1 else n
    let (content, rest) ← Bytes.split? stored rest
    let f ← readBlock? h kind n content
    let next ← f.expand h.room out
    if !h.allows stored (next.size - out.size) then none
    else if header % 2 = 0 then readBlocks h fuel next rest
    else if h.mayEnd stored next.size then some (next, rest)
    else none

/-- The number in the first four bytes of a frame that stands for nothing, without the low four
bits, which may be any. -/
def skippedMagic : Nat := 0x184D2A5

/-- Reads a frame and gives what it stands for and the bytes behind it. -/
def readFrame? (b : Bytes) : Option (Bytes × Bytes) := do
  let (start, rest) ← Bytes.split? 4 b
  if start = magic then
    let (h, rest) ← FrameHeader.read? rest
    let (out, rest) ← readBlocks h b.length #[] rest
    some (out.toList, rest)
  else if Bytes.toNat start / 16 = skippedMagic then
    let (length, rest) ← Bytes.split? 4 rest
    let (_, rest) ← Bytes.split? (Bytes.toNat length) rest
    some ([], rest)
  else none

/-- Reads frames up to the end. -/
def readFrames : (fuel : Nat) → Bytes → Option Bytes
  | 0, _ => none
  | fuel + 1, b => do
    let (out, rest) ← readFrame? b
    if rest.isEmpty then some out else (readFrames fuel rest).map (out ++ ·)

/-- What one or more frames stand for; none if one is malformed. -/
def decompress? (b : Bytes) : Option Bytes := readFrames (b.length + 1) b

/-- A long repetition and a byte behind it are read back. -/
example : decompress? (compress (List.replicate 40 7 ++ [9])) =
    some (List.replicate 40 7 ++ [9]) := by decide +kernel

/-- A frame of a given length of a mebibyte that an empty block ends behind three bytes, and one
that is short. -/
example :
    decompress? (magic ++ [0xA0, 0, 0, 16, 0, 24, 0, 0, 1, 2, 3, 1, 0, 0]) = some [1, 2, 3] ∧
    decompress? (magic ++ [0xA0, 0, 16, 0, 0, 24, 0, 0, 1, 2, 3, 1, 0, 0]) = none := by
  decide +kernel

/-- A frame that stands for nothing, in front of one with the number of no dictionary. -/
example : decompress? ([0x5F, 0x2A, 0x4D, 0x18, 2, 0, 0, 0, 9, 9] ++ magic ++
    [0x21, 0, 1, 9, 0, 0, 7]) = some [7] := by decide +kernel

end Zstd
end ColumnStore
