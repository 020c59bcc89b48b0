/-
# General-purpose codecs

A codec turns bytes into fewer bytes where they repeat, and back.  Whoever decodes knows how many
bytes to expect, and refuses any other number.
-/

import ColumnStore.Compression.Lz4
import ColumnStore.Compression.Scheme
import ColumnStore.Compression.Zstd

namespace ColumnStore

/-- Why a codec refuses its input. -/
inductive CodecError where
  | unknownScheme (text : String)
  /-- An LZ4 block without the four bytes of its decoded length. -/
  | shortBlock
  /-- An LZ4 block whose decoded length is not the expected one. -/
  | lengthPrefix (found expected : Nat)
  | malformed (scheme : Scheme)
  | decodedLength (found expected : Nat)
  deriving DecidableEq, Repr

namespace CodecError

def message : CodecError → String
  | .unknownScheme text => "unknown compression '" ++ text ++ "'"
  | .shortBlock => "lz4 block shorter than size prefix"
  | .lengthPrefix found expected =>
    "lz4 size prefix " ++ toString found ++ ", expected " ++ toString expected
  | .malformed scheme => scheme.name ++ " decompress"
  | .decodedLength found expected =>
    "decompressed " ++ toString found ++ " bytes, expected " ++ toString expected

end CodecError

/-- Reads a scheme or refuses its text. -/
def Scheme.parse (s : String) : Except CodecError Scheme :=
  match Scheme.parse? s with
  | some scheme => .ok scheme
  | none => .error (.unknownScheme (Scheme.normalize s))

/-- A pair of functions that make byte strings shorter and restore them; the decoder is told how
many bytes to expect. -/
structure Codec where
  scheme : Scheme
  compress : Bytes → Bytes
  decompress : Bytes → Nat → Except CodecError Bytes

namespace Codec

/-- Refuses bytes of another length than the expected one. -/
def checkLength (b : Bytes) (expected : Nat) : Except CodecError Bytes :=
  if b.length = expected then .ok b else .error (.decodedLength b.length expected)

/-- LZ4 blocks behind their decoded length in four bytes. -/
def lz4 : Codec where
  scheme := .lz4
  compress b := Bytes.ofNat 4 b.length ++ Lz4.compress b
  decompress b expected :=
    match Bytes.split? 4 b with
    | none => .error .shortBlock
    | some (head, block) =>
      let size := Bytes.toNat head
      if size ≠ expected then .error (.lengthPrefix size expected)
      else
        match Lz4.decompress? size block with
        | none => .error (.malformed .lz4)
        | some out => checkLength out expected

/-- Zstandard frames. -/
def zstd : Codec where
  scheme := .zstd
  compress := Zstd.compress
  decompress b expected :=
    match Zstd.decompress? b with
    | none => .error (.malformed .zstd)
    | some out => checkLength out expected

/-- A codec restores what another one has made shorter, as long as its length had 32 bits. -/
def Restores (d c : Codec) : Prop :=
  ∀ b : Bytes, b.length < UInt32.size → (c.compress b).length < b.length →
    d.decompress (c.compress b) b.length = .ok b

/-- A codec that restores what it has compressed, as long as its length has 32 bits. -/
def Faithful (c : Codec) : Prop :=
  ∀ b : Bytes, b.length < UInt32.size → c.decompress (c.compress b) b.length = .ok b

theorem Faithful.restores {c : Codec} (h : c.Faithful) : c.Restores c := fun b hb _ => h b hb

end Codec

/-- The codecs of the schemes that need one.  Zstandard compresses at a level, and restores what was
compressed at any. -/
structure Codecs where
  lz4 : Codec
  zstd : (level : Int) → Codec
  scheme_lz4 : lz4.scheme = .lz4
  scheme_zstd : ∀ level, (zstd level).scheme = .zstd

namespace Codecs

/-- The codec of a scheme; plain and constant values need none. -/
def ofScheme? (codecs : Codecs) (level : Int) : Scheme → Option Codec
  | .lz4 => some codecs.lz4
  | .zstd => some (codecs.zstd level)
  | .uncompressed | .constant => none

/-- The codec of a scheme is the one that is found by its tag. -/
theorem scheme_ofScheme? {codecs : Codecs} {level : Int} {s : Scheme} {c : Codec}
    (h : codecs.ofScheme? level s = some c) : c.scheme = s := by
  cases s <;> cases h
  · exact codecs.scheme_lz4
  · exact codecs.scheme_zstd level

/-- Whoever decodes restores what was compressed, whatever the level. -/
structure Faithful (codecs : Codecs) : Prop where
  lz4 : codecs.lz4.Restores codecs.lz4
  zstd : ∀ level, (codecs.zstd 0).Restores (codecs.zstd level)

/-- The codecs of this library, which have one level. -/
def builtin : Codecs where
  lz4 := .lz4
  zstd _ := .zstd
  scheme_lz4 := rfl
  scheme_zstd _ := rfl

end Codecs

/-- The codec of a scheme in this library. -/
def Codec.ofScheme? : Scheme → Option Codec := Codecs.builtin.ofScheme? 0

end ColumnStore
