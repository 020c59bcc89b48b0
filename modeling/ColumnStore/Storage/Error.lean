/-
# Refusals of the storage layers

What stored bytes, segments, columns and tables refuse, each with its cause.  Damage found in stored
data is a `Fault`, reported with the place where it was found.
-/

import ColumnStore.Bytes.Utf8
import ColumnStore.Compression.Codec
import ColumnStore.Disk.Header
import ColumnStore.Row.Error

namespace ColumnStore

/-- What is wrong with stored data. -/
inductive Fault where
  /-- A segment without a header, or with one that has unknown flags. -/
  | segmentHeader
  | storageTag (tag : UInt8) (expected : StorageClass)
  | schemeTag (tag : UInt8)
  | nullBitmap
  | codec (cause : CodecError)
  | bodyLength (found expected : Nat)
  | valueBytes (found rows width : Nat)
  | textOffsets
  | textRange (start stop length : Nat)
  | text (cause : Utf8.Fault)
  | trailingText
  /-- A constant segment without a value that has rows which are not `NULL`. -/
  | constantMissing
  | constantHeader
  | constantLength
  | decodedRows (found expected : Nat)
  | scanRange (start stop rows : Nat)
  | segmentStart (found expected : Nat)
  | updateRecord (rows values : Nat)
  | columnStores (found expected : Nat)
  | columnRows (found expected : Nat)
  | blockSize (size : Nat)
  | file (cause : FileError)
  | fileLength (length blockSize : Nat)
  | blockRange (block count blocks : Nat)
  | usedLength (used : Nat)
  | blockChecksum
  | payloadLength (found expected : Nat)
  | iteration (found named : Nat)
  | segmentLists (lists columns : Nat)
  | storedRows (column : String) (found expected : Nat)
  deriving DecidableEq, Repr

/-- Why a storage layer refuses an operation. -/
inductive StorageError where
  | io (cause : FileError)
  /-- Checkpoint metadata that cannot be read. -/
  | metadata
  /-- A manifest that cannot be read. -/
  | manifest
  | corruption (place : String) (fault : Fault)
  | codec (cause : CodecError)
  | unsupportedType (type : ColumnType)
  | tooLarge (what : String) (length : Nat)
  | tableNotFound (table : String)
  | tableExists (table : String)
  | noColumns (table : String)
  | columnOutOfRange (table : String) (column : Nat)
  | rowOutOfRange (table : String) (row : Nat)
  | vector (cause : VectorError)
  | filter (cause : MatchError)
  deriving DecidableEq, Repr

namespace Fault

def message : Fault → String
  | .segmentHeader => "truncated or invalid block header"
  | .storageTag tag expected =>
    "physical tag " ++ toString tag.toNat ++ " does not match " ++ expected.name
  | .schemeTag tag => "unknown compression tag " ++ toString tag.toNat
  | .nullBitmap => "truncated null bitmap"
  | .codec cause => "Compression codec error: " ++ cause.message
  | .bodyLength found expected =>
    "body is " ++ toString found ++ " bytes, header says " ++ toString expected
  | .valueBytes found rows width =>
    toString found ++ " value bytes for " ++ toString rows ++ " rows of width " ++ toString width
  | .textOffsets => "truncated string offsets"
  | .textRange start stop length =>
    "string offsets " ++ toString start ++ ".." ++ toString stop ++ " exceed " ++ toString length ++
      " bytes"
  | .text cause => cause.message
  | .trailingText => "trailing string bytes"
  | .constantMissing => "empty constant body with non-null rows"
  | .constantHeader => "truncated constant"
  | .constantLength => "constant string length mismatch"
  | .decodedRows found expected =>
    "decoded " ++ toString found ++ " rows, expected " ++ toString expected
  | .scanRange start stop rows =>
    "scan " ++ toString start ++ ".." ++ toString stop ++ " beyond " ++ toString rows ++ " rows"
  | .segmentStart found expected =>
    "segment starts at " ++ toString found ++ ", expected " ++ toString expected
  | .updateRecord rows values => toString rows ++ " rows but " ++ toString values ++ " values"
  | .columnStores found expected =>
    toString found ++ " column stores for " ++ toString expected ++ " columns"
  | .columnRows found expected =>
    "column holds " ++ toString found ++ " rows, expected " ++ toString expected
  | .blockSize size => "invalid block size " ++ toString size
  | .file cause => cause.message
  | .fileLength length size =>
    "file length " ++ toString length ++ " is not header plus whole blocks of " ++ toString size
  | .blockRange block count blocks =>
    "blocks " ++ toString block ++ "+" ++ toString count ++ " beyond file of " ++
      toString blocks ++ " blocks"
  | .usedLength used => "used length " ++ toString used ++ " exceeds block"
  | .blockChecksum => "checksum mismatch"
  | .payloadLength found expected =>
    "read " ++ toString found ++ " bytes, expected " ++ toString expected
  | .iteration found named =>
    "metadata is for iteration " ++ toString found ++ ", CURRENT names " ++ toString named
  | .segmentLists lists columns =>
    toString lists ++ " segment lists for " ++ toString columns ++ " columns"
  | .storedRows column found expected =>
    "column " ++ column ++ " holds " ++ toString found ++ " rows, expected " ++ toString expected

end Fault

namespace StorageError

/-- Whether a position lay outside the data. -/
def isOutOfRange : StorageError → Bool
  | .vector cause => cause.isOutOfRange
  | .filter cause => cause.isOutOfRange
  | _ => false

/-- The kind of a refusal in a word, with the kind of its cause behind a point. -/
def kind : StorageError → String
  | .io _ => "Io"
  | .metadata => "Metadata"
  | .manifest => "Manifest"
  | .corruption .. => "Corruption"
  | .codec _ => "Codec"
  | .unsupportedType _ => "UnsupportedType"
  | .tooLarge .. => "TooLarge"
  | .tableNotFound _ => "TableNotFound"
  | .tableExists _ => "TableExists"
  | .noColumns _ => "NoColumns"
  | .columnOutOfRange .. => "ColumnOutOfRange"
  | .rowOutOfRange .. => "RowOutOfRange"
  | .vector cause => "Vector." ++ cause.kind
  | .filter cause => "Filter." ++ cause.kind

def message : StorageError → String
  | .io cause => "IO error: " ++ cause.message
  | .metadata => "Metadata serialization error"
  | .manifest => "Manifest error"
  | .corruption place fault => "Storage corruption in " ++ place ++ ": " ++ fault.message
  | .codec cause => "Compression codec error: " ++ cause.message
  | .unsupportedType t => "Type " ++ t.render ++ " cannot be stored in a column segment"
  | .tooLarge what length => what ++ " of " ++ toString length ++ " does not fit in 32 bits"
  | .tableNotFound table => "Table not found: " ++ table
  | .tableExists table => "Table already exists: " ++ table
  | .noColumns table => "Table " ++ table ++ " must have at least one column"
  | .columnOutOfRange table column =>
    "Column " ++ toString column ++ " out of range for table " ++ table
  | .rowOutOfRange table row => "Row " ++ toString row ++ " out of range for table " ++ table
  | .vector cause => "Vector error: " ++ cause.message
  | .filter cause => "Filter error: " ++ cause.message

instance : Failure StorageError := ⟨kind, message⟩

end StorageError
end ColumnStore
