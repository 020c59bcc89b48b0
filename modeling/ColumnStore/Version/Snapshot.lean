/-
# Stamps and snapshots

What is written carries a stamp: the time of the commit, or, until then, the number of the
transaction.  Transactions are numbered from `2 ^ 62` on, so the two kinds of stamp do not overlap.

A snapshot sees what was committed up to its time, and what its own transaction wrote.
-/

namespace ColumnStore

/-- A commit time or the number of a transaction. -/
abbrev Stamp := Nat

/-- The number of the first transaction; commit times are below it. -/
def firstTransaction : Stamp := 0x4000000000000000

/-- The deletion stamp of a row that nobody deleted. -/
def neverDeleted : Stamp := UInt64.size - 1

/-- What a reader sees. -/
structure Snapshot where
  time : Stamp
  transaction : Stamp
  deriving DecidableEq, Repr, Inhabited

namespace Snapshot

/-- Sees all that is committed and nothing else. -/
def committed : Snapshot := ⟨firstTransaction - 1, 0⟩

/-- Whether what carries a stamp is seen. -/
def sees (s : Snapshot) (stamp : Stamp) : Bool := stamp ≤ s.time || stamp == s.transaction

end Snapshot

/-- A flag that stops the work of a transaction once it is raised. -/
structure CancelFlag where
  raised : Bool := false
  deriving DecidableEq, Repr

/-- Raises the flag. -/
def CancelFlag.cancel (_ : CancelFlag) : CancelFlag := ⟨true⟩

end ColumnStore
