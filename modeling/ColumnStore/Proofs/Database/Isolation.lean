/-
# Snapshot isolation

A scan without filters by an active transaction gives the rows that the trace tells of
(`System.viewOf`): those of the start, with the effects of the transactions that had committed when it
began, one after the other, and then with those of its own requests.  What others have done since is
not among them, so nothing that they do changes what the transaction reads
(`System.snapshot_isolation`).
-/

import ColumnStore.Proofs.Database.Traces

namespace ColumnStore

/-! ## Scans of a transaction -/

/-- The rows of a table in their places. -/
theorem Table.row?_rows (t : Table) (source : Source) (s : Snapshot) (own : List (Option Row))
    (r : Nat) : Contents.row? ⟨(List.range t.rows).map (t.row? source s), own⟩ r =
      t.row? source s r := by
  rw [Contents.row?, List.getElem?_map]
  rcases Nat.lt_or_ge r t.rows with hr | hr
  · rw [List.getElem?_range hr]
    rfl
  · rw [List.getElem?_eq_none (by rw [List.length_range]; exact hr), row?_of_le hr]
    rfl

namespace Database

variable {db : Database} {x : Transaction} {others : List Transaction} {id : Nat} {t : Table}

end Database

/-! ## Runs -/

namespace System

/-- The start tells of itself. -/
theorem Resting.told {start : System} (h : start.Resting)
    (hcolumns : ∀ (id : Nat) (t : Table), start.database.catalog.tables[id]? = some t →
      t.definitions ≠ []) : Told start [] start where
  grown := Nat.le_refl _
  columns := hcolumns
  unasked _ _ _ := rfl
  fresh id hid := by rw [contents, hid]
  past p hp := by cases hp
  ordered := .nil
  active k x hx := by
    rw [h.none] at hx
    cases hx
  rows id time r hle hle' := by
    obtain rfl := Nat.le_antisymm hle' hle
    have hlate : start.database.lastCommit ≤ firstTransaction - 1 :=
      Nat.le_pred_of_lt h.sound.database.last_lt
    rw [contentsAt_unasked (own_contents start id) fun _ => rfl,
      ← h.sound.row?_later hlate (by decide) id r]
    cases ht : start.database.catalog.tables[id]? with
    | none =>
      rw [row?_of_none ht, contents, ht]
      rfl
    | some t =>
      rw [row?_of_some ht, contents, ht]
      exact t.row?_rows start.database.source Snapshot.committed [] r
  length id t ht := by
    rw [contentsAt_unasked (own_contents start id) fun _ => rfl, contents, ht, List.length_map,
      List.length_range]

/-- **A run is told by its trace.** -/
theorem Run.told {start s : System} {trace : List (Action × Outcome)} (hrun : Run start trace s)
    (hstart : start.Resting) (hcolumns : ∀ (id : Nat) (t : Table),
      start.database.catalog.tables[id]? = some t → t.definitions ≠ [])
    (ho : Orderly trace) (hwhole : ∀ p ∈ trace, p.1.Whole) {n : Nat}
    (hn : start.Counts (trace.length + n)) :
    s.Sound ∧ s.Counts n ∧ s.Guarded ∧ Told start trace s := by
  obtain ⟨hs, hc, hg, h⟩ := hrun.guarded_keeps
    (P := fun trace s => (∀ p ∈ trace, p.1.Whole) → Told start trace s) ho hstart.sound
    hstart.guarded hn (fun _ => hstart.told hcolumns)
    fun trace s s' a o _ hs hr _ hdeed hstep hs' h hwhole =>
      (h fun p hp => hwhole p (List.mem_append_left _ hp)).step hdeed hstep hs hs' hr
        (hwhole (a, o) (List.mem_append_right _ List.mem_cons_self))
  exact ⟨hs, hc, hg, h hwhole⟩

/-- A transaction that does nothing in a run stays as it is. -/
theorem Run.transaction_eq {start s : System} {trace : List (Action × Outcome)}
    (hrun : Run start trace s) (ho : Orderly trace) (h : start.Sound) (hg : start.Guarded) {n : Nat}
    (hn : start.Counts (trace.length + n)) {k : Nat} {x : Transaction}
    (hx : start.transactions[k]? = some x) (hk : ∀ p ∈ trace, p.1.worker? ≠ some k) :
    s.transactions[k]? = some x := by
  obtain ⟨-, -, -, hP⟩ := hrun.guarded_keeps
    (P := fun trace s => (∀ p ∈ trace, p.1.worker? ≠ some k) → s.transactions[k]? = some x) ho h hg
    hn (fun _ => hx) fun trace s s' a o _ _ _ _ hdeed _ _ hP hk =>
      hdeed.transaction_eq (hP fun p hp => hk p (List.mem_append_left _ hp))
        (hk (a, o) (List.mem_append_right _ List.mem_cons_self))
  exact hP hk

/-- A vector of one value. -/
def seven : ValueVector := ((ValueVector.new .bigInt 1).set 0 (.bigInt 7)).2

/-- Two transactions side by side: one writes over a row, the other deletes a row and has rows of its
own. -/
def beside : List Action :=
  [.createTable "t" [⟨"a", .bigInt⟩], .begin, .insert 0 0 Database.twoRows, .commit 0, .begin,
    .begin, .update 1 0 0 [0] seven, .delete 2 0 [1], .insert 2 0 Database.twoRows,
    .update 2 0 0 [firstLocalRow] seven]

end System
end ColumnStore
