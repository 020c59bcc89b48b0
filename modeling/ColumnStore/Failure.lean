/-
# Failures

Every layer of the store has an inductive type of its own for what it refuses. What they share is
how a refusal is reported.
-/

namespace ColumnStore

/-- Errors that can be reported: to a caller that branches on the kind of a failure, and to a reader
who wants its text. -/
class Failure (ε : Type) where
  /-- The cause in a word, with the kind of an inner cause behind a point. -/
  kind : ε → String
  /-- The cause in a sentence. -/
  message : ε → String

end ColumnStore
