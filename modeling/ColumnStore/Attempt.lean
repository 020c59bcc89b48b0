/-
# Attempts

An operation that may stop half-way says what came of it and which state it leaves.
-/

namespace ColumnStore

/-- A result and the state that the attempt leaves, whether it succeeded or not. -/
abbrev Attempt (ε σ α : Type) := Except ε α × σ

namespace Attempt

/-- Goes on with the state after a success, and stops with the state after a failure. -/
def andThen {ε σ α β : Type} (r : Attempt ε σ α) (next : α → σ → Attempt ε σ β) : Attempt ε σ β :=
  match r with
  | (.ok a, s) => next a s
  | (.error e, s) => (.error e, s)

/-- Another form of the error. -/
def mapError {ε ε' σ α : Type} (r : Attempt ε σ α) (f : ε → ε') : Attempt ε' σ α :=
  (r.1.mapError f, r.2)

/-- The result of an attempt from which nothing is kept when it fails: the state before it stays. -/
def ofExcept {ε σ α : Type} (s : σ) : Except ε (α × σ) → Attempt ε σ α
  | .ok (a, s') => (.ok a, s')
  | .error e => (.error e, s)

/-- Does a step with everything in a list, also after a failure, and reports the first failure. -/
def all {ε σ α : Type} (step : σ → α → Attempt ε σ Unit) (s : σ) : List α → Attempt ε σ Unit
  | [] => (.ok (), s)
  | a :: rest =>
    let (r, s) := step s a
    let (later, s) := all step s rest
    (if r matches .error _ then r else later, s)

end Attempt
end ColumnStore
