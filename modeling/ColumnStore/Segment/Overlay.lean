/-
# Updates over the values of a segment

The values that a segment was filled with never change.  An update of a row is kept beside them:
each updated row has a chain of versions, the oldest first.
-/

import ColumnStore.Value.Scalar
import ColumnStore.Version.Snapshot

namespace ColumnStore

/-- A value written over a row, with the stamp of its writer. -/
structure Version where
  stamp : Stamp
  value : Scalar
  deriving Repr, BEq

/-- The chains of the updated rows, in ascending order of the rows. -/
structure Overlay where
  chains : List (Nat × List Version) := []
  /-- Whether a row was ever updated. -/
  touched : Bool := false
  deriving Repr, BEq

namespace Overlay

/-- The number of updated rows. -/
def size (o : Overlay) : Nat := o.chains.length

def isEmpty (o : Overlay) : Bool := o.chains.isEmpty

/-- Changes the chain of a row in ascending chains; the chain of a row without one is empty, and a
chain that becomes empty is dropped. -/
def alter (row : Nat) (f : List Version → List Version) :
    List (Nat × List Version) → List (Nat × List Version)
  | [] => cons (f []) []
  | (r, chain) :: rest =>
    if r < row then (r, chain) :: alter row f rest
    else if r = row then cons (f chain) rest
    else cons (f []) ((r, chain) :: rest)
where
  cons (chain : List Version) (rest : List (Nat × List Version)) : List (Nat × List Version) :=
    if chain.isEmpty then rest else (row, chain) :: rest

/-- The versions of a row, the oldest first. -/
def chain (o : Overlay) (row : Nat) : List Version := (o.chains.lookup row).getD []

/-- Adds a version of a row. -/
def push (o : Overlay) (row : Nat) (v : Version) : Overlay :=
  ⟨alter row (· ++ [v]) o.chains, true⟩

/-- The newest version of a row that a snapshot sees. -/
def resolve? (o : Overlay) (row : Nat) (s : Snapshot) : Option Scalar :=
  ((o.chain row).reverse.find? fun v => s.sees v.stamp).map (·.value)

/-- The stamp of the newest version of a row. -/
def latest? (o : Overlay) (row : Nat) : Option Stamp := (o.chain row).getLast?.map (·.stamp)

/-- Gives every version of a row that a transaction wrote the time of its commit. -/
def commit (o : Overlay) (row : Nat) (transaction time : Stamp) : Overlay :=
  { o with
    chains :=
      alter row (·.map fun v => if v.stamp = transaction then { v with stamp := time } else v)
        o.chains }

/-- Takes the last version that carries a stamp out of a chain. -/
def removeLast? (stamp : Stamp) : List Version → Option (Scalar × List Version)
  | [] => none
  | v :: rest =>
    match removeLast? stamp rest with
    | some (value, rest) => some (value, v :: rest)
    | none => if v.stamp = stamp then some (v.value, rest) else none

/-- Takes back the newest version of a row that a transaction wrote, and gives its value. -/
def remove (o : Overlay) (row : Nat) (transaction : Stamp) : Option Scalar × Overlay :=
  match removeLast? transaction (o.chain row) with
  | some (value, rest) => (some value, { o with chains := alter row (fun _ => rest) o.chains })
  | none => (none, o)

/-- The updated rows from `start` up to and without `stop`, in ascending order; none when the range
is turned around, unless no row was ever updated. -/
def rows? (o : Overlay) (start stop : Nat) : Option (List Nat) :=
  if stop < start && o.touched then none
  else some ((o.chains.map (·.1)).filter fun row => start ≤ row && row < stop)

/-- All values written, row by row. -/
def values (o : Overlay) : List Scalar := o.chains.flatMap fun (_, chain) => chain.map (·.value)

end Overlay
end ColumnStore
