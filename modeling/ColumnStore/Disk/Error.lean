/-
# Refusals of files

Why something cannot be done with a file.
-/

import ColumnStore.Bytes.Basic

namespace ColumnStore

/-- Why a header is refused. -/
inductive HeaderFault where
  | checksum
  | magic
  | version
  | fileTooSmall
  deriving DecidableEq, Repr

def HeaderFault.message : HeaderFault → String
  | .checksum => "header CRC mismatch"
  | .magic => "invalid magic"
  | .version => "unsupported version"
  | .fileTooSmall => "file too small for header"

/-- Why a file operation fails. -/
inductive FileError where
  | notFound
  | notDirectory
  | isDirectory
  | alreadyExists
  | nameTooLong
  /-- A path with a zero byte. -/
  | nulInPath
  | endOfFile
  | header (fault : HeaderFault)
  /-- The file was opened for reading alone. -/
  | notWritable
  deriving DecidableEq, Repr

namespace FileError

/-- The cause in a word. -/
def name : FileError → String
  | .notFound => "NotFound"
  | .notDirectory => "NotADirectory"
  | .isDirectory => "IsADirectory"
  | .alreadyExists => "AlreadyExists"
  | .nameTooLong => "InvalidFilename"
  | .nulInPath => "InvalidInput"
  | .endOfFile => "UnexpectedEof"
  | .header _ => "InvalidData"
  | .notWritable => "Uncategorized"

def message : FileError → String
  | .notFound => "No such file or directory (os error 2)"
  | .notDirectory => "Not a directory (os error 20)"
  | .isDirectory => "Is a directory (os error 21)"
  | .alreadyExists => "File exists (os error 17)"
  | .nameTooLong => "File name too long (os error 36)"
  | .nulInPath => "file name contained an unexpected NUL byte"
  | .endOfFile => "failed to fill whole buffer"
  | .header fault => fault.message
  | .notWritable => "Bad file descriptor (os error 9)"

end FileError
end ColumnStore
