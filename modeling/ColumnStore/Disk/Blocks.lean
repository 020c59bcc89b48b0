/-
# Block files

A block file is a header, filled up to 4096 bytes, and blocks of one size behind it.  A payload lies
in consecutive blocks.  Each block holds the CRC-32 of its part of the payload, the length of the
part, and the part, filled up with zero bytes.

Block files are written once, from the first block to the last, and read in any order.
-/

import ColumnStore.Disk.Files
import ColumnStore.Storage.Error

namespace ColumnStore

/-- Where a payload lies: `count` blocks from `block` on, and its length. -/
structure BlockPointer where
  block : Nat
  count : Nat
  length : Nat
  deriving DecidableEq, Repr

/-- An open block file. -/
structure BlockFile where
  path : String
  blockSize : Nat
  file : FileId
  blocks : Nat
  writable : Bool
  deriving DecidableEq, Repr

namespace BlockFile

/-- Where the first block starts. -/
def headerArea : Nat := 4096

/-- The bytes of a block in front of its part of the payload. -/
def blockHeader : Nat := 8

/-- The least size of a block. -/
def leastBlockSize : Nat := 64

/-- The bytes of payload in one block. -/
def capacity (f : BlockFile) : Nat := f.blockSize - blockHeader

/-- The first `n` parts of a payload, `capacity` bytes each. -/
def parts (capacity : Nat) : (n : Nat) → Bytes → List Bytes
  | 0, _ => []
  | n + 1, payload => payload.take capacity :: parts capacity n (payload.drop capacity)

/-- The blocks that a payload takes, at least one. -/
def blocksFor (capacity length : Nat) : Nat := max 1 ((length + capacity - 1) / capacity)

/-- One block with its part of a payload. -/
def encodeBlock (blockSize : Nat) (part : Bytes) : Bytes :=
  Bytes.padTo blockSize
    (Bytes.ofNat 4 (crc32 part).toNat ++ Bytes.ofNat 4 part.length ++ part)

/-- The part of a payload in a block. -/
def decodeBlock (blockSize : Nat) (block : Bytes) : Except Fault Bytes :=
  let used := Bytes.toNat ((block.drop 4).take 4)
  if blockSize - blockHeader < used then .error (.usedLength used)
  else
    let part := (block.drop blockHeader).take used
    if (crc32 part).toNat = Bytes.toNat (block.take 4) then .ok part else .error .blockChecksum

/-- Makes an empty block file. -/
def create (d : Disk) (path : String) (blockSize : Nat) : Except StorageError (BlockFile × Disk) :=
  if blockSize < leastBlockSize || UInt32.size ≤ blockSize then
    .error (.corruption (shownPath path) (.blockSize blockSize))
  else
    match d.create path with
    | .error e => .error (.io e)
    | .ok (file, d) =>
      let header := (FileHeader.ofKind .blockFile blockSize).encode
      .ok ({ path, blockSize, file, blocks := 0, writable := true },
        d.write file (Bytes.padTo headerArea header))

/-- Opens a block file for reading; it must be a header and whole blocks. -/
def openFile (d : Disk) (path : String) : Except StorageError BlockFile :=
  let fail fault := Except.error (.corruption (shownPath path) fault)
  match d.find path with
  | .error e => fail (.file e)
  | .ok file =>
    let bytes := d.bytes file
    if bytes.length < FileHeader.length then fail (.file (.header .fileTooSmall))
    else
      match FileHeader.readKind .blockFile bytes with
      | .error e => fail (.file e)
      | .ok header =>
        let blockSize := header.parameter
        let length := bytes.length
        if blockSize < leastBlockSize then fail (.blockSize blockSize)
        else if length < headerArea || (length - headerArea) % blockSize ≠ 0 then
          fail (.fileLength length blockSize)
        else
          let blocks := (length - headerArea) / blockSize
          .ok { path, blockSize, file, blocks, writable := false }

/-- Writes a payload to fresh blocks. -/
def write (f : BlockFile) (d : Disk) (payload : Bytes) :
    Except StorageError (BlockPointer × BlockFile × Disk) :=
  let count := blocksFor f.capacity payload.length
  if UInt32.size ≤ count then .error (.tooLarge "block run" count)
  else if !f.writable then .error (.io .notWritable)
  else
    let bytes := (parts f.capacity count payload).flatMap (encodeBlock f.blockSize)
    .ok ({ block := f.blocks, count, length := payload.length },
      { f with blocks := f.blocks + count },
      d.writeAt f.file (headerArea + f.blocks * f.blockSize) bytes)

/-- The payload of consecutive blocks. -/
def decodeBlocks (blockSize : Nat) : (count : Nat) → Bytes → Except Fault Bytes
  | 0, _ => .ok []
  | count + 1, raw => do
    let part ← decodeBlock blockSize (raw.take blockSize)
    let rest ← decodeBlocks blockSize count (raw.drop blockSize)
    pure (part ++ rest)

/-- Reads a payload and checks every block of it.  Block numbers and lengths are 64-bit words. -/
def read (f : BlockFile) (d : Disk) (p : BlockPointer) : Except StorageError Bytes :=
  let place := shownPath f.path ++ " block " ++ toString p.block
  let fail fault := Except.error (.corruption place fault)
  if p.count ≠ 0 && UInt64.size ≤ p.block + p.count then .error (.vector .outOfRange)
  else if p.count = 0 || f.blocks < p.block + p.count then
    fail (.blockRange p.block p.count f.blocks)
  else
    match (d.bytes f.file).slice? (headerArea + p.block * f.blockSize) (p.count * f.blockSize) with
    | none => fail (.file .endOfFile)
    | some raw =>
      if Bytes.longest < p.length then .error (.vector .outOfRange)
      else
        match decodeBlocks f.blockSize p.count raw with
        | .error fault => fail fault
        | .ok payload =>
          if payload.length = p.length then .ok payload
          else fail (.payloadLength payload.length p.length)

end BlockFile
end ColumnStore
