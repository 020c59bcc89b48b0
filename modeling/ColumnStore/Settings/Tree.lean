/-
# Sources of settings

Settings come from a file and from the environment.  Both give a tree: groups of named values and
lists, the leaves in whatever form the source has for them.  A value put at a path takes the place
of the one that was there; groups are joined.

A value is read in the form that its setting needs: texts are read as numbers and flags, numbers and
flags are written as texts.
-/

import ColumnStore.Text.Integer
import ColumnStore.Text.Json
import ColumnStore.Value.Scalar

namespace ColumnStore

/-- Why settings cannot be loaded. -/
inductive SettingsError where
  | malformedFile
  | noSection (name : String)
  | badValue (group key : String)
  /-- A path leads to an item in front of a list, or to one farther behind than lists go. -/
  | outOfRange
  deriving DecidableEq, Repr

/-- Settings as a source gives them. -/
inductive SettingTree where
  | absent
  | flag (value : Bool)
  | integer (value : Int)
  /-- A number as a pattern of 64 bits. -/
  | number (bits : UInt64)
  | text (value : String)
  | items (values : List SettingTree)
  | group (entries : List (String × SettingTree))
  deriving Repr, Inhabited

namespace SettingTree

/-- The entries of a group, none of anything else. -/
def entries : SettingTree → List (String × SettingTree)
  | .group es => es
  | _ => []

/-- Gives the entry with a key another value, or adds one. -/
def setEntry (key : String) (value : SettingTree) :
    List (String × SettingTree) → List (String × SettingTree)
  | [] => [(key, value)]
  | (k, v) :: rest => if k = key then (k, value) :: rest else (k, v) :: setEntry key value rest

/-- The value of the entry with a key. -/
def entry (key : String) (es : List (String × SettingTree)) : SettingTree :=
  (es.lookup key).getD .absent

mutual

/-- A value put where another one is: the entries of a group are joined to those that are there, and
anything else takes its place. -/
def join (old : SettingTree) : SettingTree → SettingTree
  | .group [] => old
  | .group (e :: es) => .group (joinEntries old.entries (e :: es))
  | value => value

/-- Entries over other ones, key by key.  Where nothing is, there is an empty group. -/
def joinEntries (old : List (String × SettingTree)) :
    List (String × SettingTree) → List (String × SettingTree)
  | [] => old
  | (key, value) :: rest =>
    joinEntries (setEntry key (join ((old.lookup key).getD (.group [])) value) old) rest

end

/-! ## Paths -/

/-- A step on the way to a value. -/
inductive PathStep where
  | key (name : String)
  /-- An item of a list; a negative number counts from the end. -/
  | item (index : Int)
  deriving DecidableEq, Repr

/-- The items of a list, none of anything else. -/
def listItems : SettingTree → List SettingTree
  | .items vs => vs
  | _ => []

/-- How far a list can grow. -/
def longestList : Nat := 0x100000000

/-- The position of an item of a list, or of one behind its end. -/
def position (length : Nat) (index : Int) : Except SettingsError Nat :=
  let i := if index < 0 then length + index else index
  if i < 0 || longestList ≤ i then .error .outOfRange else .ok i.toNat

/-- Gives the item at a position another value; a list that is too short is filled up. -/
def setItem (vs : List SettingTree) (i : Nat) (v : SettingTree) : List SettingTree :=
  (vs ++ List.replicate (i + 1 - vs.length) SettingTree.absent).set i v

/-- Puts a value at a path; what is no group or no list on the way is replaced by an empty one.  At
the end of a path a group is joined with what is there, but an item of a list is replaced. -/
def put (value : SettingTree) : List PathStep → SettingTree → Except SettingsError SettingTree
  | [], _ => .ok value
  | [.key name], t =>
    .ok (.group (joinEntries t.entries [(name, value)]))
  | .key name :: path, t => do
    let v ← put value path (entry name t.entries)
    pure (.group (setEntry name v t.entries))
  | .item index :: path, t => do
    let vs := t.listItems
    let i ← position vs.length index
    let v ← put value path (vs.getD i .absent)
    pure (.items (setItem vs i v))

def isNameChar (c : Char) : Bool := c.isAlphanum || c = '_' || c = '-' || c = ' '

/-- A name in front of a text, and what follows. -/
def name? (cs : List Char) : Option (String × List Char) :=
  let name := cs.takeWhile isNameChar
  if name.isEmpty then none else some (String.ofList name, cs.dropWhile isNameChar)

/-- Integers lie below this number, and not below its negative. -/
def integerBound : Nat := 0x8000000000000000

/-- The number of an item up to the closing bracket, and what follows. -/
def index? (cs : List Char) : Option (Int × List Char) :=
  let isBlank (c : Char) := c = ' ' || c = '\t'
  match cs.span (· ≠ ']') with
  | (inner, _ :: rest) =>
    let digits := ((inner.dropWhile isBlank).reverse.dropWhile isBlank).reverse
    if digits.head? = some '+' then none
    else (Text.intWithin? integerBound (String.ofList digits)).map (·, rest)
  | _ => none

/-- The steps that are written behind a name: `.name` and `[index]`; each takes one from the
bound. -/
def steps? : (bound : Nat) → List Char → Option (List PathStep)
  | _, [] => some []
  | bound + 1, '.' :: cs => do
    let (name, rest) ← name? cs
    some (.key name :: (← steps? bound rest))
  | bound + 1, '[' :: cs => do
    let (i, rest) ← index? cs
    some (.item i :: (← steps? bound rest))
  | _, _ => none

/-- The path that a key stands for; one that is not written as a path is a name. -/
def path (key : String) : List PathStep :=
  let steps := do
    let (name, rest) ← name? key.toList
    pure (PathStep.key name :: (← steps? rest.length rest))
  steps.getD [.key key]

example : path "a.b[ -1 ][2]" = [.key "a", .key "b", .item (-1), .item 2] ∧
    path "a..b" = [.key "a..b"] ∧ path "a[+1]" = [.key "a[+1]"] := by decide +kernel

/-! ## Sources -/

/-- A number of a file: an integer when it is written as one and has 64 bits with its sign. -/
def ofNumber? (n : JsonNumber) : Option SettingTree :=
  match n.intWithin? integerBound with
  | some i => some (.integer i)
  | none => n.toDouble?.map .number

mutual

/-- The settings in a JSON value; none when a text or a number in it stands for none. -/
def ofJson? : Json → Option SettingTree
  | .null => some .absent
  | .bool b => some (.flag b)
  | .number n => ofNumber? n
  | .string s => s.map .text
  | .array vs => (ofItems? vs).map .items
  | .object fs => (ofFields? [] fs).map .group

def ofItems? : List Json → Option (List SettingTree)
  | [] => some []
  | v :: rest => do pure ((← ofJson? v) :: (← ofItems? rest))

/-- Fields behind others; of fields of one name the last counts. -/
def ofFields? (es : List (String × SettingTree)) :
    List (Option String × Json) → Option (List (String × SettingTree))
  | [] => some es
  | (key, v) :: rest => do
    let v ← ofJson? v
    ofFields? (setEntry (← key) v es) rest

end

/-- How many arrays and objects can lie around a value of a file. -/
def deepest : Nat := 127

/-- The settings in the text of a file, where keys may be paths.  A file that is no object says
nothing. -/
def ofFile (s : String) : Except SettingsError SettingTree :=
  match (Json.parse? (Bytes.ofString s)).filter (·.depth ≤ deepest) with
  | none => .error .malformedFile
  | some v =>
    match ofJson? v with
    | none => .error .malformedFile
    | some t => t.entries.foldlM (fun root (key, v) => put v (path key) root) (.group [])

/-- What the names of variables start with, in small letters. -/
def variableStart : String := "strata__"

/-- The small letter for a capital one, as far as it is an ASCII letter.  The sign for Kelvin is a
capital k. -/
def smallLetter (c : Char) : Char := if c = '\u212a' then 'k' else c.toLower

/-- Puts the value of a variable over settings.  Capitals do not count in its name, and `__` divides
it into a path. -/
def putVariable (t : SettingTree) (name value : String) : Except SettingsError SettingTree :=
  let name := name.map smallLetter
  if name.startsWith variableStart then
    let parts := (name.drop variableStart.length).toString.splitOn "__"
    put (.text value) (path (".".intercalate parts)) t
  else .ok t

/-! ## Reading values -/

/-- A number nearest to a pattern within bounds. -/
def nearestWithin (low high : Int) (bits : UInt64) : Int :=
  max low (min high (Ieee.Format.double.nearestInt bits.toNat))

/-- Words for yes and no. -/
def word? (s : String) : Option Bool :=
  match s.map Char.toLower with
  | "true" | "on" | "yes" => some true
  | "false" | "off" | "no" => some false
  | _ => none

/-- A value as a number of 64 bits without a sign. -/
def toNat? : SettingTree → Option Nat
  | .text s =>
    match word? s with
    | some b => some b.toNat
    | none => Text.natBelow? UInt64.size s
  | .flag b => some b.toNat
  | .integer n => if n < 0 then none else some n.toNat
  | .number bits => some (nearestWithin 0 (UInt64.size - 1) bits).toNat
  | _ => none

/-- A value as a number of 64 bits with a sign. -/
def toInt? : SettingTree → Option Int
  | .text s =>
    match word? s with
    | some b => some b.toNat
    | none => Text.intWithin? integerBound s
  | .flag b => some b.toNat
  | .integer n => some n
  | .number bits => some (nearestWithin (-integerBound) (integerBound - 1) bits)
  | _ => none

/-- A value as a flag. -/
def toFlag? : SettingTree → Option Bool
  | .text "1" => some true
  | .text "0" => some false
  | .text s => word? s
  | .flag b => some b
  | .integer n => some (n != 0)
  | .number bits => some (Ieee.Format.double.magnitude bits.toNat != 0)
  | _ => none

/-- A value as a text. -/
def toText? : SettingTree → Option String
  | .text s => some s
  | .flag b => some (toString b)
  | .integer n => some (toString n)
  | .number bits => some (Scalar.double bits).render
  | _ => none

end SettingTree
end ColumnStore
