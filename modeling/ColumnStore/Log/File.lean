/-
# The log file

A log is a file header and frames.  Entries are added in groups behind the last whole entry.
Opening a log cuts off what a crash left behind it.
-/

import ColumnStore.Attempt
import ColumnStore.Disk.Files
import ColumnStore.Log.Frame

namespace ColumnStore
namespace Log

/-- The path of the log in a directory of the data directory; the empty name is that directory. -/
def path (directory : String) : String :=
  if directory = "" then "strata.wal" else directory ++ "/strata.wal"

/-- Reads a log.  No file, or one that ends in its header, is an empty log. -/
def read (d : Disk) (path : String) : Except LogError LogContents :=
  if !d.contains path then .ok {}
  else
    match d.read path with
    | .error cause => .error (.io cause)
    | .ok b =>
      if b.length < FileHeader.length then .ok { torn := !b.isEmpty }
      else
        match FileHeader.readKind .log b with
        | .error (.header fault) => .error (.corruption 0 (.header fault))
        | .error cause => .error (.io cause)
        | .ok _ => Frame.readAll FileHeader.length (b.drop FileHeader.length)

end Log

/-- A log that is open for writing. -/
structure LogWriter where
  path : String
  file : FileId
  /-- The length of the header and all whole groups. -/
  length : Nat
  /-- The room that is made for the bytes of a group. -/
  bufferSize : Nat
  deriving DecidableEq, Repr, Inhabited

namespace LogWriter

def isEmpty (w : LogWriter) : Bool := w.length ≤ FileHeader.length

/-- Opens the log with a path for what was read from it, and cuts off a torn end. -/
def openFile (d : Disk) (path : String) (bufferSize : Nat) (contents : LogContents) :
    Except FileError (LogWriter × Disk) := do
  if contents.validLength < FileHeader.length then
    let (file, d) ← d.create path
    pure ({ path, file, length := FileHeader.length, bufferSize },
      d.write file (FileHeader.ofKind .log 0).encode)
  else
    let file ← d.find path
    pure ({ path, file, length := contents.validLength, bufferSize },
      if contents.torn then d.setLength file contents.validLength else d)

/-- Opens the log in a directory, which is made if there is none. -/
def openIn (d : Disk) (directory : String) (bufferSize : Nat) : Attempt LogError Disk LogWriter :=
  ((d.makeDirectoryAt directory).mapError .io).andThen fun _ d =>
    let path := Log.path directory
    Attempt.ofExcept d do
      let contents ← Log.read d path
      (openFile d path bufferSize contents).mapError .io

/-- Writes entries as one group. -/
def append (w : LogWriter) (d : Disk) (entries : List LogEntry) :
    Except LogError (LogWriter × Disk) := do
  if Bytes.longest < w.bufferSize then throw .outOfRange
  let b ← Frame.encodeAll entries
  pure ({ w with length := w.length + b.length }, d.writeAt w.file w.length b)

/-- Cuts a log back to a length that is not in its header. -/
def truncateTo (w : LogWriter) (d : Disk) (n : Nat) : LogWriter × Disk :=
  if w.length ≤ n || n < FileHeader.length then (w, d)
  else ({ w with length := n }, d.setLength w.file n)

/-- Drops all entries. -/
def truncate (w : LogWriter) (d : Disk) : LogWriter × Disk :=
  ({ w with length := FileHeader.length }, d.setLength w.file FileHeader.length)

end LogWriter
end ColumnStore
