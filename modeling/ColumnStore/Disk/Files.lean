/-
# Files

The tree of files and directories below the data directory.  A file that is open keeps its contents
when its name goes to another file or is deleted, so names refer to files by number.

A path is walked name by name.  An empty name and `.` stay where they are, in a directory and
nowhere else, so a path that ends in `/` never leads to a file; `..` goes one directory up.  Above
the data directory there is one more directory, of which nothing is known.
-/

import ColumnStore.Attempt
import ColumnStore.Disk.Error

namespace ColumnStore

/-- The number of a file. -/
abbrev FileId := Nat

/-- A place in the tree: the names that lead to it from the data directory. -/
abbrev Place := List String

/-- What is at a place. -/
inductive DiskEntry where
  | file (id : FileId)
  | directory
  deriving DecidableEq, Repr

/-- The files and directories below the data directory. -/
structure Disk where
  entries : List (Place × DiskEntry) := []
  contents : Array Bytes := #[]
  deriving Repr, Inhabited

/-- How a path is shown: behind the data directory, unless it does not start there. -/
def shownPath (path : String) : String := if path.startsWith "/" then path else "$DIR/" ++ path

namespace Disk

/-! ## Walking -/

/-- The directory above the data directory. -/
def outside : Place := [".."]

/-- What is at a place, if anything. -/
def entry? (d : Disk) (p : Place) : Option DiskEntry :=
  if p = [] ∨ p = outside then some .directory else d.entries.lookup p

def isDirectory (d : Disk) (p : Place) : Bool := d.entry? p = some .directory

/-- The most bytes of a name. -/
def longestName : Nat := 255

/-- The most bytes of a path. -/
def longestPath : Nat := 4095

/-- The place of a name in a directory, whether there is something or not. -/
def child (d : Disk) (p : Place) (name : String) : Except FileError Place :=
  if !d.isDirectory p then .error .notDirectory
  else if name = "" ∨ name = "." then .ok p
  else if name = ".." then .ok (if p = [] ∨ p = outside then outside else p.dropLast)
  else if longestName < name.utf8ByteSize then .error .nameTooLong
  else .ok (p ++ [name])

/-- The place of a name in a directory, where something must be. -/
def step (d : Disk) (p : Place) (name : String) : Except FileError Place := do
  let p ← d.child p name
  if (d.entry? p).isSome then pure p else throw .notFound

/-- A character in front of names that are divided by `/`. -/
def addToNames (c : Char) (names : List Char × List (List Char)) : List Char × List (List Char) :=
  if c = '/' then ([], names.1 :: names.2) else (c :: names.1, names.2)

/-- The names in a path, at least one. -/
def names (path : String) : List String :=
  let (first, rest) := path.toList.foldr addToNames ([], [])
  (first :: rest).map String.ofList

/-- Refuses what cannot be a path. -/
def checkPath (path : String) : Except FileError Unit :=
  if '\x00' ∈ path.toList then .error .nulInPath
  else if longestPath < path.utf8ByteSize then .error .nameTooLong
  else .ok ()

/-- Where walks along a path begin. -/
def origin (path : String) : Place := if path.startsWith "/" then outside else []

/-- The place that a path leads to. -/
def locate (d : Disk) (path : String) : Except FileError Place := do
  checkPath path
  (names path).foldlM d.step (origin path)

/-- Whether a path leads anywhere. -/
def contains (d : Disk) (path : String) : Bool := (d.locate path) matches .ok _

/-- The file that a path leads to. -/
def find (d : Disk) (path : String) : Except FileError FileId := do
  match d.entry? (← d.locate path) with
  | some (.file id) => pure id
  | _ => throw .isDirectory

/-! ## Contents -/

/-- The bytes of a file. -/
def bytes (d : Disk) (file : FileId) : Bytes := d.contents.getD file []

/-- The bytes of the file that a path leads to. -/
def read (d : Disk) (path : String) : Except FileError Bytes := return d.bytes (← d.find path)

/-- Replaces the bytes of a file. -/
def write (d : Disk) (file : FileId) (b : Bytes) : Disk :=
  { d with contents := d.contents.setIfInBounds file b }

/-- Writes over the bytes of a file from a position on; no bytes leave the file as it is, also when
it ends in front of the position. -/
def writeAt (d : Disk) (file : FileId) (start : Nat) (b : Bytes) : Disk :=
  if b.isEmpty then d else d.write file ((d.bytes file).overwrite start b)

/-- Cuts a file off at a length, or fills it up to it with zero bytes. -/
def setLength (d : Disk) (file : FileId) (n : Nat) : Disk :=
  d.write file (Bytes.padTo n ((d.bytes file).take n))

/-- Changes the bytes of the file that a path leads to. -/
def change (d : Disk) (path : String) (f : Bytes → Bytes) : Except FileError (Bytes × Disk) := do
  let id ← d.find path
  let b := f (d.bytes id)
  pure (b, d.write id b)

/-! ## Names -/

/-- Puts something at a place. -/
def setEntry (d : Disk) (p : Place) (e : DiskEntry) : Disk :=
  { d with entries := (p, e) :: d.entries.filter (·.1 ≠ p) }

/-- The place for a file to be made at a path; the directory must be there. -/
def placeFor (d : Disk) (path : String) : Except FileError Place := do
  checkPath path
  let body := (names path).reverse.dropWhile (· = "")
  let p ← (body.drop 1).reverse.foldlM d.step (origin path)
  let p ← d.child p (body.headD "")
  if body.length < (names path).length then throw .isDirectory
  pure p

/-- Empties the file at a path, which is made when there is none. -/
def create (d : Disk) (path : String) : Except FileError (FileId × Disk) := do
  let p ← d.placeFor path
  match d.entry? p with
  | some (.file id) => pure (id, d.write id [])
  | some .directory => throw .isDirectory
  | none =>
    let id := d.contents.size
    pure (id, { d with contents := d.contents.push [] }.setEntry p (.file id))

/-- Takes the name of the file that a path leads to away. -/
def delete (d : Disk) (path : String) : Except FileError Disk := do
  let p ← d.locate path
  if d.isDirectory p then throw .isDirectory
  pure { d with entries := d.entries.filter (·.1 ≠ p) }

/-- Gives the file at a path another path, which is taken away from any other file. -/
def rename (d : Disk) (path newPath : String) : Except FileError Disk := do
  let id ← d.find path
  let p ← d.placeFor newPath
  if d.isDirectory p then throw .isDirectory
  pure ((← d.delete path).setEntry p (.file id))

/-- Makes the directory that some names lead to; the directory around it must be there. -/
def makeDirectory (d : Disk) (names : List String) : Except FileError Disk := do
  let p ← names.dropLast.foldlM d.step []
  let p ← d.child p (names.getLastD "")
  if (d.entry? p).isSome then throw .alreadyExists
  pure (d.setEntry p .directory)

/-- Makes the directory that some names lead to, the innermost in front, unless it is there. -/
def ensureDirectory (d : Disk) (names : List String) : Except FileError Disk :=
  match d.makeDirectory names.reverse with
  | .ok d => .ok d
  | .error e =>
    match names.reverse.foldlM d.step [] with
    | .ok p => if d.isDirectory p then .ok d else .error e
    | .error _ => .error e

/-- Makes the directories that some names lead through, the innermost in front, up to the first that
cannot be made. -/
def makeDirectories (d : Disk) : List String → Attempt FileError Disk Unit
  | [] => (.ok (), d)
  | name :: outer =>
    match d.ensureDirectory (name :: outer) with
    | .ok d => (.ok (), d)
    | .error .notFound =>
      match d.makeDirectories outer with
      | (.error e, d) => (.error e, d)
      | (.ok (), d) =>
        match d.ensureDirectory (name :: outer) with
        | .ok d => (.ok (), d)
        | .error e => (.error e, d)
    | .error e => (.error e, d)

/-- The names in a path that lead somewhere, the innermost in front. -/
def innerNames (path : String) : List String :=
  ((names path).filter fun name => name ≠ "" && name ≠ ".").reverse

/-- Makes the directory at a path, with those around it. -/
def makeDirectoryAt (d : Disk) (path : String) : Attempt FileError Disk Unit :=
  match checkPath path with
  | .error e => (.error e, d)
  | .ok () => d.makeDirectories (innerNames path)

/-- Writes a file, and makes the directories around it. -/
def store (d : Disk) (path : String) (b : Bytes) : Attempt FileError Disk Unit :=
  match checkPath path with
  | .error e => (.error e, d)
  | .ok () =>
    (d.makeDirectories ((innerNames path).drop 1)).andThen fun _ d =>
      match d.create path with
      | .ok (id, d) => (.ok (), d.write id b)
      | .error e => (.error e, d)

/-! ## Lists -/

/-- Puts a name among names in ascending order. -/
def insertName (name : String) : List String → List String
  | [] => [name]
  | n :: rest => if name ≤ n then name :: n :: rest else n :: insertName name rest

/-- The names directly in the data directory, directories among them, in ascending order. -/
def list (d : Disk) : List String :=
  (d.entries.filterMap fun (p, _) => match p with
    | [name] => some name
    | _ => none).foldr insertName []

/-- The length of what a path leads to.  A directory has 40 bytes and 20 for every entry. -/
def length? (d : Disk) (path : String) : Option Nat := do
  let p ← (d.locate path).toOption
  match ← d.entry? p with
  | .file id => some (d.bytes id).length
  | .directory =>
    some (40 + 20 * (d.entries.filter fun (q, _) => !q.isEmpty && q.dropLast = p).length)

/-- Directories are made on the way to a file, and a file is no directory. -/
example :
    let d := ({} : Disk).store "a/b/c" [1] |>.2
    (d.read "a/../a/b/./c" matches .ok [1]) ∧
      (d.read "a/b" matches .error .isDirectory) ∧
      (d.read "a/b/c/" matches .error .notDirectory) ∧ d.read "a/d" matches .error .notFound := by
  decide +kernel

end Disk
end ColumnStore
