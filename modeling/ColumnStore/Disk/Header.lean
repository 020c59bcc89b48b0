/-
# The header of a file

Every file of the store but the manifest starts with 20 bytes:

| bytes | |
| ---: | --- |
| 8 | magic, by the kind of the file |
| 2 | version |
| 2 | flags |
| 4 | a number that the kind of the file gives a meaning |
| 4 | CRC-32 of the 16 bytes before |
-/

import ColumnStore.Bytes.Crc32
import ColumnStore.Bytes.Cursor
import ColumnStore.Disk.Error

namespace ColumnStore

/-- The kinds of files that have a header. -/
inductive FileKind where
  | blockFile
  | log
  deriving DecidableEq, Repr

/-- The first eight bytes of a file of a kind. -/
def FileKind.magic : FileKind → Bytes
  | .blockFile => Bytes.ofString "STRDBBLK"
  | .log => Bytes.ofString "STRDBWAL"

/-- The header of a file without its checksum. -/
structure FileHeader where
  magic : Bytes
  version : Nat := 1
  flags : Nat := 0
  parameter : Nat := 0
  deriving DecidableEq, Repr

namespace FileHeader

/-- The version that is written and read. -/
def currentVersion : Nat := 1

/-- The bytes of a header, with the checksum. -/
def length : Nat := 20

/-- The bytes that the checksum covers. -/
def body (h : FileHeader) : Bytes :=
  h.magic ++ Bytes.ofNat 2 h.version ++ Bytes.ofNat 2 h.flags ++ Bytes.ofNat 4 h.parameter

def checksum (h : FileHeader) : Nat := (crc32 h.body).toNat

def encode (h : FileHeader) : Bytes := h.body ++ Bytes.ofNat 4 h.checksum

/-- The header of a kind of file. -/
def ofKind (kind : FileKind) (parameter : Nat) : FileHeader :=
  { magic := kind.magic, version := currentVersion, parameter }

/-- Reads a header from the front of some bytes and checks its checksum. -/
def read (b : Bytes) : Except FileError FileHeader :=
  match Bytes.split? length b with
  | none => .error .endOfFile
  | some (b, _) =>
    let field start n := Bytes.toNat ((b.drop start).take n)
    let h : FileHeader :=
      { magic := b.take 8, version := field 8 2, flags := field 10 2, parameter := field 12 4 }
    if (crc32 (b.take 16)).toNat = field 16 4 then .ok h else .error (.header .checksum)

/-- Reads a header and checks that it is of a kind of file. -/
def readKind (kind : FileKind) (b : Bytes) : Except FileError FileHeader := do
  let h ← read b
  if h.magic ≠ kind.magic then throw (.header .magic)
  if h.version ≠ currentVersion then throw (.header .version)
  pure h

end FileHeader
end ColumnStore
