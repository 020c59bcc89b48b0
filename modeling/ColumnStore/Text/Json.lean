/-
# JSON texts

A reader of JSON from bytes, and a writer of its strings.  Each byte is read as the character with
its number, since outside strings only ASCII has a meaning.  The fields of an object stay in order,
repeated ones included.  A string that stands for no text, because its bytes are none or because of
an escape for half of a surrogate pair, is kept as an absent one.
-/

import ColumnStore.Bytes.Utf8
import ColumnStore.Text.Hex
import ColumnStore.Text.JsonNumber

namespace ColumnStore

/-- A JSON value. -/
inductive Json where
  | null
  | bool (value : Bool)
  | number (value : JsonNumber)
  | string (text : Option String)
  | array (items : List Json)
  | object (fields : List (Option String × Json))
  deriving Repr, Inhabited

namespace Json

def isSpace (c : Char) : Bool := c = ' ' || c = '\n' || c = '\t' || c = '\r'

def skipSpace (cs : List Char) : List Char := cs.dropWhile isSpace

/-- The number of four hexadecimal digits. -/
def unit? (a b c d : Char) : Option Nat := do
  pure (((← Text.hexValue? a) * 16 + (← Text.hexValue? b)) * 256 + (← Text.hexValue? c) * 16 +
    (← Text.hexValue? d))

/-- The byte for a character behind a backslash. -/
def escaped? (c : Char) : Option UInt8 :=
  match c with
  | '"' => some 34
  | '\\' => some 92
  | '/' => some 47
  | 'b' => some 8
  | 'f' => some 12
  | 'n' => some 10
  | 'r' => some 13
  | 't' => some 9
  | _ => none

/-- A part of a string: a byte, or the number of a character or of half of a surrogate pair. -/
inductive Piece where
  | byte (value : UInt8)
  | unit (value : Nat)
  deriving DecidableEq, Repr

/-- The parts of a string up to its closing quote. -/
def pieces : List Char → Option (List Piece × List Char)
  | [] => none
  | '"' :: rest => some ([], rest)
  | '\\' :: 'u' :: a :: b :: c :: d :: rest => do
    let n ← unit? a b c d
    let (ps, rest) ← pieces rest
    some (.unit n :: ps, rest)
  | '\\' :: c :: rest => do
    let b ← escaped? c
    let (ps, rest) ← pieces rest
    some (.byte b :: ps, rest)
  | c :: rest =>
    if c = '\\' || c.toNat < 32 then none
    else do
      let (ps, rest) ← pieces rest
      some (.byte (.ofNat c.toNat) :: ps, rest)

/-- The bytes of the parts of a string, the halves of surrogate pairs joined. -/
def join? : List Piece → Option Bytes
  | [] => some []
  | .byte b :: rest => (join? rest).map (b :: ·)
  | .unit n :: rest =>
    if 0xD800 ≤ n && n < 0xDC00 then
      match rest with
      | .unit m :: rest =>
        if 0xDC00 ≤ m && m < 0xE000 then
          (join? rest).map (character (0x10000 + (n - 0xD800) * 0x400 + (m - 0xDC00)) ++ ·)
        else none
      | _ => none
    else if 0xDC00 ≤ n && n < 0xE000 then none
    else (join? rest).map (character n ++ ·)
where
  /-- The bytes of the character with a number. -/
  character (n : Nat) : Bytes := Bytes.ofString (String.singleton (Char.ofNat n))

/-- The text of a string behind its opening quote. -/
def stringBody (cs : List Char) : Option (Option String × List Char) :=
  (pieces cs).map fun (ps, rest) => ((join? ps).bind fun b => (Utf8.decode b).toOption, rest)

/-- The digits in front, and what follows. -/
def digits (cs : List Char) : List Nat × List Char :=
  ((cs.takeWhile Char.isDigit).map (·.toNat - 48), cs.dropWhile Char.isDigit)

/-- The digits behind a point, if there is one. -/
def fraction? : List Char → Option (List Nat × List Char)
  | '.' :: rest =>
    let (ds, rest) := digits rest
    if ds.isEmpty then none else some (ds, rest)
  | cs => some ([], cs)

/-- The number of an exponent behind its sign. -/
def exponentDigits? (negative : Bool) (cs : List Char) : Option (Int × List Char) :=
  let (ds, rest) := digits cs
  if ds.isEmpty then none
  else
    let n : Int := JsonNumber.ofDigits ds
    some (if negative then -n else n, rest)

/-- An exponent, if there is one. -/
def exponent? : List Char → Option (Option Int × List Char)
  | c :: rest =>
    if c = 'e' || c = 'E' then
      (match rest with
      | '+' :: rest => exponentDigits? false rest
      | '-' :: rest => exponentDigits? true rest
      | rest => exponentDigits? false rest).map fun (e, rest) => (some e, rest)
    else some (none, c :: rest)
  | [] => some (none, [])

/-- A number behind its sign; a leading zero stands alone in front of the point. -/
def number? (negative : Bool) (cs : List Char) : Option (Json × List Char) := do
  let (whole, rest) := digits cs
  if whole.isEmpty || (whole.length > 1 && whole.head? = some 0) then none
  else
    let (fraction, rest) ← fraction? rest
    let (exponent, rest) ← exponent? rest
    some (.number { negative, whole, fraction, exponent }, rest)

/-- A word of the language, behind its first letter. -/
def word? (letters : List Char) (value : Json) (cs : List Char) : Option (Json × List Char) :=
  if cs.take letters.length = letters then some (value, cs.drop letters.length) else none

mutual

/-- Reads a value; every value, item and field takes one from the bound. -/
def value? : (bound : Nat) → List Char → Option (Json × List Char)
  | 0, _ => none
  | bound + 1, cs =>
    match skipSpace cs with
    | '"' :: rest => (stringBody rest).map fun (s, rest) => (.string s, rest)
    | '[' :: rest =>
      match skipSpace rest with
      | ']' :: rest => some (.array [], rest)
      | rest => (items? bound rest).map fun (vs, rest) => (.array vs, rest)
    | '{' :: rest =>
      match skipSpace rest with
      | '}' :: rest => some (.object [], rest)
      | rest => (fields? bound rest).map fun (fs, rest) => (.object fs, rest)
    | '-' :: rest => number? true rest
    | 'n' :: rest => word? ['u', 'l', 'l'] .null rest
    | 't' :: rest => word? ['r', 'u', 'e'] (.bool true) rest
    | 'f' :: rest => word? ['a', 'l', 's', 'e'] (.bool false) rest
    | rest => number? false rest

/-- Reads the items of an array up to its end. -/
def items? : (bound : Nat) → List Char → Option (List Json × List Char)
  | 0, _ => none
  | bound + 1, cs => do
    let (v, rest) ← value? bound cs
    match skipSpace rest with
    | ',' :: rest => (items? bound rest).map fun (vs, rest) => (v :: vs, rest)
    | ']' :: rest => some ([v], rest)
    | _ => none

/-- Reads the fields of an object up to its end. -/
def fields? : (bound : Nat) → List Char → Option (List (Option String × Json) × List Char)
  | 0, _ => none
  | bound + 1, cs =>
    match skipSpace cs with
    | '"' :: rest => do
      let (name, rest) ← stringBody rest
      match skipSpace rest with
      | ':' :: rest => do
        let (v, rest) ← value? bound rest
        match skipSpace rest with
        | ',' :: rest => (fields? bound rest).map fun (fs, rest) => ((name, v) :: fs, rest)
        | '}' :: rest => some ([(name, v)], rest)
        | _ => none
      | _ => none
    | _ => none

end

/-- Reads bytes that are one value, with blanks around it. -/
def parse? (b : Bytes) : Option Json := do
  let cs := b.map fun x => Char.ofNat x.toNat
  let (v, rest) ← value? (cs.length + 1) cs
  if (skipSpace rest).isEmpty then some v else none

mutual

/-- How many arrays and objects lie around the innermost value. -/
def depth : Json → Nat
  | .array vs => depthItems vs + 1
  | .object fs => depthFields fs + 1
  | _ => 0

def depthItems : List Json → Nat
  | [] => 0
  | v :: rest => max (depth v) (depthItems rest)

def depthFields : List (Option String × Json) → Nat
  | [] => 0
  | (_, v) :: rest => max (depth v) (depthFields rest)

end

/-- The values of the fields of a record: each once among the fields of an object, or all in order
in an array.  Other fields of an object are ignored. -/
def record? (names : List String) : Json → Option (List Json)
  | .array items => if items.length = names.length then some items else none
  | .object fields =>
    if fields.any (·.1.isNone) then none
    else
      names.mapM fun name =>
        match fields.filter (·.1 = some name) with
        | [(_, v)] => some v
        | _ => none
  | _ => none

/-- An integer that is not negative and below a bound. -/
def natBelow? (bound : Nat) : Json → Option Nat
  | .number n => n.natBelow? bound
  | _ => none

def text? : Json → Option String
  | .string s => s
  | _ => none

/-- A character inside quotes. -/
def escape (c : Char) : List Char :=
  match c.toNat with
  | 8 => ['\\', 'b']
  | 9 => ['\\', 't']
  | 10 => ['\\', 'n']
  | 12 => ['\\', 'f']
  | 13 => ['\\', 'r']
  | n =>
    if c = '"' || c = '\\' then ['\\', c]
    else if n < 32 then '\\' :: 'u' :: Text.hexDigits 4 n
    else [c]

/-- A text in quotes. -/
def quote (s : String) : String :=
  String.ofList ('"' :: s.toList.flatMap escape ++ ['"'])

/-- Quotes, backslashes and control characters are read back. -/
example : parse? (Bytes.ofString (quote "a\"\\\n\x01"))
    matches some (.string (some "a\"\\\n\x01")) := by
  decide +kernel

end Json
end ColumnStore
