/-
# Encoded segments

The bytes of a segment are a header, a bitmap of the `NULL` rows when there are any, and a body.

| values | body |
| --- | --- |
| of fixed width | one value after the other, zero bytes for `NULL` |
| text | where each text ends, in 32 bits, behind a zero; then the texts |
| all equal | the one value, text behind its length; nothing when every row is `NULL` |

The last form is taken whenever it is possible.  Otherwise the body may be compressed, and is if
that makes it shorter.
-/

import ColumnStore.Compression.Codec
import ColumnStore.Segment.Header
import ColumnStore.Storage.Error
import ColumnStore.Value.Binary
import ColumnStore.Value.Order
import ColumnStore.Vector.Basic

namespace ColumnStore
namespace SegmentImage

/-- A length that is stored in 32 bits. -/
def length32 (what : String) (n : Nat) : Except StorageError Nat :=
  if n < UInt32.size then .ok n else .error (.tooLarge what n)

/-- What the valid slots of a vector have in common. -/
inductive Uniformity where
  | allNull
  | same (value : Scalar)
  | mixed

/-- Looks for two valid slots that differ, in `n` slots from `i` on; `first` is a value seen
before. -/
def uniformFrom (v : ValueVector) (first : Option Scalar) (i : Nat) :
    (n : Nat) → Except StorageError Uniformity
  | 0 => .ok (first.elim .allNull .same)
  | n + 1 =>
    match v.get? i with
    | none => .error (.vector .outOfRange)
    | some .null => uniformFrom v first (i + 1) n
    | some x =>
      match first with
      | none => uniformFrom v (some x) (i + 1) n
      | some y => if y.same x then uniformFrom v first (i + 1) n else .ok .mixed

/-- The body for one value in every row. -/
def constantBody : Scalar → Except StorageError Bytes
  | .varchar s => do
    let text := Bytes.ofString s
    let n ← length32 "constant string" text.length
    pure (Bytes.ofNat 4 n ++ text)
  | x => .ok x.fixed

/-- Where each of some texts ends, the first starting at `start`, and all texts together. -/
def textEnds (start : Nat) : List Bytes → Except StorageError (Bytes × Bytes)
  | [] => .ok ([], [])
  | text :: rest => do
    let stop ← length32 "segment string data" (start + text.length)
    let (ends, data) ← textEnds stop rest
    pure (Bytes.ofNat 4 stop ++ ends, text ++ data)

/-- The bytes of a slot of fixed width; `NULL` and a slot that is not there are zero. -/
def slotBytes (width : Nat) (v : ValueVector) (i : Nat) : Bytes :=
  match v.get? i with
  | none | some .null => List.replicate width 0
  | some x => x.fixed

/-- The bytes of a slot of text; `NULL` has none. -/
def slotText (v : ValueVector) (i : Nat) : Bytes :=
  match v.get? i with
  | some (.varchar s) => Bytes.ofString s
  | _ => []

/-- Refuses a number of rows that cannot be stored, given the bytes for them. -/
def checkRows (count bytes : Nat) : Except StorageError Unit := do
  if Bytes.longest < bytes then throw (.vector .outOfRange)
  let _ ← length32 "segment row count" count

/-- The body for the first `count` slots, value by value. -/
def plainBody (v : ValueVector) (count : Nat) : Except StorageError Bytes :=
  match v.type with
  | .list _ => .error (.unsupportedType v.type)
  | .varchar => do
    checkRows count (4 * (count + 1))
    let (ends, data) ← textEnds 0 ((List.range (min count v.capacity)).map (slotText v))
    pure (Bytes.ofNat 4 0 ++ ends ++ data)
  | t => do
    let width := t.storage.width?.getD 0
    checkRows count (count * width)
    pure ((List.range count).flatMap (slotBytes width v))

/-- The scheme, the length before compression and the bytes of the body. -/
structure Body where
  scheme : Scheme
  length : Nat
  bytes : Bytes

/-- Compresses a body by a codec, if there is one and it makes the body shorter. -/
def Body.compressed (codec : Option Codec) (raw : Bytes) : Body :=
  let plain : Body := ⟨.uncompressed, raw.length, raw⟩
  match codec with
  | none => plain
  | some codec =>
    let short := codec.compress raw
    if short.length < raw.length then ⟨codec.scheme, raw.length, short⟩ else plain

/-- What the first `count` slots have in common, no slot having anything in common with others. -/
def uniformity (v : ValueVector) (count : Nat) : Except StorageError Uniformity :=
  if count = 0 then pure .mixed else uniformFrom v none 0 count

/-- The body for the first `count` slots. -/
def body (v : ValueVector) (count : Nat) (codec : Option Codec) : Except StorageError Body := do
  if v.type.isNested then throw (.unsupportedType v.type)
  match ← uniformity v count with
  | .allNull => pure ⟨.constant, 0, []⟩
  | .same x => do
    let bytes ← constantBody x
    pure ⟨.constant, bytes.length, bytes⟩
  | .mixed => do
    let raw ← plainBody v count
    pure (Body.compressed codec raw)

/-- The bitmap of the first `count` slots, none of which is kept when no slot is `NULL`. -/
def nullBitmap? (v : ValueVector) (count : Nat) : Option (Option Bytes) := do
  if 0 < (← v.validity.countNull? count) then
    pure (some (← v.validity.toNullBitmap? count))
  else pure none

/-- The bytes of the first `count` slots of a vector, for a body that a codec may compress. -/
def encodeBy (codec : Option Codec) (v : ValueVector) (count : Nat) : Except StorageError Bytes :=
  match nullBitmap? v count with
  | none => .error (.vector .outOfRange)
  | some bitmap => do
    let body ← body v count codec
    let rows ← length32 "segment row count" count
    let length ← length32 "segment body length" body.length
    let header := SegmentHeader.new v.type.storage body.scheme bitmap.isSome rows length
    pure (header.encode ++ bitmap.getD [] ++ body.bytes)

/-- The bytes of the first `count` slots of a vector. -/
def encode (v : ValueVector) (count : Nat) (preferred : Scheme) : Except StorageError Bytes :=
  encodeBy (Codec.ofScheme? preferred) v count

/-- Damage found in an encoded segment. -/
def damaged {α : Type} (fault : Fault) : Except StorageError α :=
  .error (.corruption "column segment" fault)

/-- What is found at a position that is used without a check. -/
def within {α : Type} : Option α → Except StorageError α
  | some a => .ok a
  | none => .error (.vector .outOfRange)

/-- The values of fixed width in a body, none unless it has the bytes for just so many. -/
def fixedValues? (t : ColumnType) (width : Nat) : (count : Nat) → Bytes → Option (List Scalar)
  | 0, b => if b.isEmpty then some [] else none
  | count + 1, b => do
    let (slot, rest) ← Bytes.split? width b
    let values ← fixedValues? t width count rest
    pure (Scalar.ofFixed t slot :: values)

/-- The texts that end at the given places in `size` bytes, `data` being those from `start` on,
where the first text starts; nothing may be left. -/
def textValues (size start : Nat) (data : Bytes) : List Nat → Except StorageError (List Scalar)
  | [] => if start = size then .ok [] else damaged .trailingText
  | stop :: rest => do
    if stop < start ∨ size < stop then damaged (.textRange start stop size)
    let (text, more) ← within (Bytes.split? (stop - start) data)
    match Utf8.decode text with
    | .error fault => damaged (.text fault)
    | .ok s => do
      let values ← textValues size stop more rest
      pure (.varchar s :: values)

/-- The numbers in consecutive groups of four bytes. -/
def words : (count : Nat) → Bytes → List Nat
  | 0, _ => []
  | count + 1, b => Bytes.toNat (b.take 4) :: words count (b.drop 4)

/-- The texts of a body; the first place, where the first text starts, is read as well. -/
def textBody (count : Nat) (body : Bytes) : Except StorageError (List Scalar) :=
  if body.length < 4 * (count + 1) then damaged .textOffsets
  else
    let (offsets, data) := body.splitAt (4 * (count + 1))
    let start := Bytes.toNat (offsets.take 4)
    textValues data.length start (data.drop start) (words count (offsets.drop 4))

/-- The values of a body, `NULL` rows included. -/
def plainValues (t : ColumnType) (count : Nat) (body : Bytes) : Except StorageError (List Scalar) :=
  match t with
  | .list _ => .error (.unsupportedType t)
  | .varchar => textBody count body
  | t =>
    let width := t.storage.width?.getD 0
    if body.length ≠ count * width then damaged (.valueBytes body.length count width)
    else within (fixedValues? t width count body)

/-- The one value of a body that is not empty. -/
def constantValue (t : ColumnType) (body : Bytes) : Except StorageError Scalar := do
  let values ←
    match t with
    | .varchar =>
      match Bytes.split? 4 body with
      | none => damaged .constantHeader
      | some (head, text) =>
        if text.length ≠ Bytes.toNat head then damaged .constantLength
        else textBody 1 (Bytes.ofNat 4 0 ++ head ++ text)
    | t => plainValues t 1 body
  within values.head?

/-- A vector of which the slots hold the given values, in range of the mask or not. -/
def vectorOf (t : ColumnType) (validity : Validity) (values : List Scalar) : ValueVector :=
  .flat t validity values.toArray

/-- The vector of a body of which every row that is not `NULL` has the same value. -/
def decodeConstant (t : ColumnType) (count : Nat) (validity : Validity) (body : Bytes) :
    Except StorageError ValueVector :=
  if body.isEmpty then do
    let nulls ← within (validity.countNull? count)
    if nulls ≠ count then damaged .constantMissing
    pure ((ValueVector.new t count).withValidity validity)
  else do
    let x ← constantValue t body
    let marks ← within ((List.range count).mapM validity.get?)
    pure (vectorOf t validity (marks.map fun valid => if valid then x else Scalar.blank t))

/-- The mask of the rows of a segment, and the bytes behind the bitmap. -/
def decodeNulls (h : SegmentHeader) (b : Bytes) : Except StorageError (Validity × Bytes) :=
  if h.hasNulls then
    match Bytes.split? ((h.rows + 7) / 8) b with
    | none => damaged .nullBitmap
    | some (bits, rest) => do
      let validity ← within (Validity.ofNullBitmap? bits h.rows h.rows)
      pure (validity, rest)
  else .ok (.new h.rows, b)

/-- The body before compression. -/
def decodeBody (codec : Option Codec) (h : SegmentHeader) (payload : Bytes) :
    Except StorageError Bytes := do
  let body ←
    match codec with
    | none => pure payload
    | some codec =>
      match codec.decompress payload h.bodyLength with
      | .ok body => pure body
      | .error cause => damaged (.codec cause)
  if body.length ≠ h.bodyLength then damaged (.bodyLength body.length h.bodyLength)
  pure body

/-- The vector of an encoded segment whose values are of a type, given the codecs. -/
def decodeBy (codecs : Codecs) (b : Bytes) (t : ColumnType) : Except StorageError ValueVector :=
  match SegmentHeader.decode? b with
  | none => damaged .segmentHeader
  | some (h, rest) => do
    if StorageClass.ofTag? h.storage ≠ some t.storage then damaged (.storageTag h.storage t.storage)
    match Scheme.ofTag? h.scheme with
    | none => damaged (.schemeTag h.scheme)
    | some scheme => do
      let (validity, payload) ← decodeNulls h rest
      let body ← decodeBody (codecs.ofScheme? 0 scheme) h payload
      if scheme = .constant then decodeConstant t h.rows validity body
      else do
        let values ← plainValues t h.rows body
        pure (vectorOf t validity values)

/-- The vector of an encoded segment whose values are of a type. -/
def decode (b : Bytes) (t : ColumnType) : Except StorageError ValueVector :=
  decodeBy .builtin b t

end SegmentImage
end ColumnStore
