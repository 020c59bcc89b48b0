/-
# Systems

A system is a database with all transactions that were begun on it.  Its steps are the operations of
its users, in any order; a run is a sequence of steps, with what came of each.

`System.Sound` is kept by every step (`step_cases`), which also says what a step does to the tables:
only a commit and a change of the schema do anything that everybody sees.
-/

import ColumnStore.Database.Commit
import ColumnStore.Proofs.Database.Minding
import ColumnStore.Proofs.Storage.Stored
import Mathlib.Data.List.Perm.Basic

namespace ColumnStore

/-- What a user asks for.  Transactions are numbered in the order in which they were begun. -/
inductive Action where
  | createTable (name : String) (definitions : List ColumnDefinition)
  | dropTable (name : String)
  | begin
  | insert (k : Nat) (table : TableId) (chunk : Chunk)
  | delete (k : Nat) (table : TableId) (rows : List Nat)
  | update (k : Nat) (table : TableId) (column : Nat) (rows : List Nat) (values : ValueVector)
  | scan (k : Nat) (table : TableId) (columns : List Nat) (filters : List Filter)
      (vectorSize : Nat)
  | commit (k : Nat)
  | rollback (k : Nat)
  | cancel (k : Nat)
  /-- Whoever had the transaction has let go of it. -/
  | abandon (k : Nat)

/-- What came of it. -/
inductive Outcome where
  | done
  | created (id : TableId)
  | count (n : Nat)
  | read (chunks : List ScanChunk)
  | committed (time : Stamp)
  | refused (e : TransactionError)
  /-- A commit is in the log, but its rows do not fit into memory. -/
  | lost (e : TransactionError)

/-- An action with values that are of the types that they claim to be of. -/
def Action.Typed : Action → Prop
  | .update _ _ _ _ values => values.Typed
  | _ => True

/-- A database and the transactions that were begun on it. -/
structure System where
  database : Database
  transactions : List Transaction := []

namespace System

/-- Transaction `k` at work. -/
def session? (s : System) (k : Nat) : Option Session := s.transactions[k]?.map (⟨s.database, ·⟩)

/-- What is left of the work of transaction `k`. -/
def put (s : System) (k : Nat) (x : Session) : System :=
  ⟨x.database, s.transactions.set k x.transaction⟩

/-- The outcome of an attempt. -/
def outcome {α : Type} (f : α → Outcome) : Except TransactionError α → Outcome
  | .ok a => f a
  | .error e => .refused e

/-- Lets transaction `k` do something. -/
def work (s : System) (k : Nat) {α : Type} (f : α → Outcome)
    (act : Session → Attempt TransactionError Session α) : Option (Outcome × System) := do
  let x ← s.session? k
  let (r, x) := act x
  some (outcome f r, s.put k x)

/-- Lets transaction `k` do something with a table. -/
def workOn (s : System) (k : Nat) (table : TableId) {α : Type} (f : α → Outcome)
    (act : Session → Attempt TransactionError Session α) : Option (Outcome × System) :=
  if table < s.database.catalog.tables.size then s.work k f act else none

/-- Commits transaction `k`. -/
def commit (s : System) (k : Nat) : Option (Outcome × System) := do
  let x ← s.session? k
  match x.commit with
  | (.ok time, x') => some (.committed time, s.put k x')
  | (.error e, x') =>
    let isLost := x.transaction.state = .active ∧ x'.transaction.state = .committed
    some (if isLost then .lost e else .refused e, s.put k x')

/-- One step; none for a transaction or a table that there is not. -/
def step (s : System) : Action → Option (Outcome × System)
  | .createTable name definitions =>
    match s.database.createTable name definitions with
    | .ok (id, database) => some (.created id, { s with database })
    | .error e => some (.refused e, s)
  | .dropTable name =>
    match s.database.dropTable name with
    | .ok database => some (.done, { s with database })
    | .error e => some (.refused e, s)
  | .begin =>
    let (x, database) := s.database.newTransaction
    some (.done, ⟨database, s.transactions ++ [x]⟩)
  | .insert k table chunk => s.workOn k table .count (·.insert table chunk)
  | .delete k table rows => s.workOn k table .count (·.delete table rows)
  | .update k table column rows values =>
    s.workOn k table .count (·.update table column rows values)
  | .scan k table columns filters vectorSize =>
    s.workOn k table .read fun x => x.onDatabase fun db =>
      db.scanTable x.transaction table columns filters vectorSize
  | .commit k => s.commit k
  | .rollback k => s.work k (fun _ => .done) (·.rollback)
  | .cancel k => s.work k (fun _ => .done) fun x =>
    (.ok (), { x with transaction := { x.transaction with cancel := x.transaction.cancel.cancel } })
  | .abandon k => s.work k (fun _ => .done) fun x =>
    (.ok (), { if x.transaction.state = .active then x.rollback.2 else x with
      database := x.abandon })

/-- Runs: actions with what came of them, the oldest first. -/
inductive Run (start : System) : List (Action × Outcome) → System → Prop
  | nil : Run start [] start
  | snoc {trace : List (Action × Outcome)} {s s' : System} {a : Action} {o : Outcome}
      (h : Run start trace s) (hs : s.step a = some (o, s')) : Run start (trace ++ [(a, o)]) s'

/-- The transactions besides `k`. -/
def others (s : System) (k : Nat) : List Transaction := s.transactions.eraseIdx k

/-- A database that is sound for all transactions that are active. -/
structure Sound (s : System) : Prop where
  database : s.database.Sound (activeOf s.transactions)
  ids : ∀ x ∈ s.transactions, firstTransaction ≤ x.id
  capacity : 0 < s.database.policy.capacity

theorem session?_eq_some {s : System} {k : Nat} {x : Session} :
    s.session? k = some x ↔ x.database = s.database ∧ s.transactions[k]? = some x.transaction := by
  rw [session?, Option.map_eq_some_iff]
  constructor
  · rintro ⟨y, hy, rfl⟩
    exact ⟨rfl, hy⟩
  · rintro ⟨hdb, hx⟩
    exact ⟨_, hx, by rw [← hdb]⟩

/-- What a transaction has done changes no other one. -/
theorem transactions_put {s : System} {k : Nat} {x : Session} (h : s.session? k = some x)
    (x' : Session) (j : Nat) : (s.put k x').transactions[j]? =
      if k = j then some x'.transaction else s.transactions[j]? := by
  have hlt := (List.getElem?_eq_some_iff.mp (session?_eq_some.mp h).2).1
  change (s.transactions.set k x'.transaction)[j]? = _
  rw [List.getElem?_set, if_pos hlt]

theorem perm_others {s : System} {k : Nat} {x : Transaction} (h : s.transactions[k]? = some x) :
    s.transactions.Perm (x :: s.others k) := by
  obtain ⟨hlt, rfl⟩ := List.getElem?_eq_some_iff.mp h
  exact (List.getElem_cons_eraseIdx_perm hlt).symm

/-- **A system is sound when each of its sessions is.** -/
theorem Sound.session {s : System} (h : s.Sound) {k : Nat} {x : Session}
    (hx : s.session? k = some x) : x.Sound (s.others k) := by
  obtain ⟨hdb, htr⟩ := session?_eq_some.mp hx
  rw [Session.Sound, hdb]
  exact h.database.perm ((perm_others htr).filter _)

theorem Sound.id {s : System} (h : s.Sound) {k : Nat} {x : Session}
    (hx : s.session? k = some x) : firstTransaction ≤ x.transaction.id :=
  h.ids _ (List.mem_of_getElem? (session?_eq_some.mp hx).2)

theorem Sound.put {s : System} (hs : s.Sound) {k : Nat} {x x' : Session}
    (hx : s.session? k = some x) (h : x'.Sound (s.others k))
    (hid : x'.transaction.id = x.transaction.id)
    (hp : x'.database.policy = x.database.policy) : (s.put k x').Sound := by
  obtain ⟨-, htr⟩ := session?_eq_some.mp hx
  have hlt := (List.getElem?_eq_some_iff.mp htr).1
  have hperm : (s.put k x').transactions.Perm (x'.transaction :: s.others k) :=
    List.set_perm_cons_eraseIdx hlt x'.transaction
  refine ⟨Database.Sound.perm h (hperm.filter _).symm, fun y hy => ?_, ?_⟩
  rotate_left
  · change 0 < x'.database.policy.capacity
    rw [hp, (session?_eq_some.mp hx).1]
    exact hs.capacity
  rcases List.mem_cons.mp (hperm.mem_iff.mp hy) with rfl | hy
  · rw [hid]
    exact hs.id hx
  · exact hs.ids y ((perm_others htr).mem_iff.mpr (List.mem_cons_of_mem _ hy))

/-- What a step did that took a sound system to a sound one. -/
inductive Effect (s s' : System) : Prop
  /-- Nothing that everybody sees. -/
  | silent (id : Stamp) (hid : firstTransaction ≤ id)
      (h : Database.Silent id s.database s'.database)
      (hnext : s'.database.nextTransaction ≤ s.database.nextTransaction + 1)
  | committed (k : Nat) (x x' : Session) (hx : s.session? k = some x)
      (hs : x.database.Sound (x.transaction :: activeOf (s.others k)))
      (h : Session.Commits x x' (s.database.lastCommit + 1)) (hput : s' = s.put k x')
  | created (name : String) (definitions : List ColumnDefinition) (id : TableId)
      (h : s.database.createTable name definitions = .ok (id, s'.database))
  | dropped (name : String) (h : s.database.dropTable name = .ok s'.database)

theorem work_eq_some {s s' : System} {k : Nat} {α : Type} {f : α → Outcome}
    {act : Session → Attempt TransactionError Session α} {o : Outcome}
    (h : s.work k f act = some (o, s')) : ∃ x, s.session? k = some x ∧
      o = outcome f (act x).1 ∧ s' = s.put k (act x).2 := by
  obtain ⟨x, hx, hrest⟩ := Option.bind_eq_some_iff.mp h
  obtain ⟨rfl, rfl⟩ := Prod.mk.inj (Option.some.inj hrest)
  exact ⟨x, hx, rfl, rfl⟩

theorem workOn_eq_some {s s' : System} {k : Nat} {table : TableId} {α : Type} {f : α → Outcome}
    {act : Session → Attempt TransactionError Session α} {o : Outcome}
    (h : s.workOn k table f act = some (o, s')) : ∃ x t, s.session? k = some x ∧
      x.database.catalog.tables[table]? = some t ∧ o = outcome f (act x).1 ∧
      s' = s.put k (act x).2 := by
  unfold workOn at h
  split at h
  · rename_i hlt
    obtain ⟨x, hx, ho, hs'⟩ := work_eq_some h
    have hdb := (session?_eq_some.mp hx).1
    exact ⟨x, _, hx, by rw [hdb]; exact Array.getElem?_eq_getElem hlt, ho, hs'⟩
  · cases h

/-- A table is refused, or created. -/
theorem createTable_eq_some {s s' : System} {name : String} {definitions : List ColumnDefinition}
    {o : Outcome} (h : s.step (.createTable name definitions) = some (o, s')) :
    (∃ e, o = .refused e ∧ s' = s) ∨
      ∃ id db, s.database.createTable name definitions = .ok (id, db) ∧ o = .created id ∧
        s' = { s with database := db } := by
  unfold step at h
  cases hc : s.database.createTable name definitions with
  | error e =>
    simp only [hc, Option.some.injEq, Prod.mk.injEq] at h
    exact Or.inl ⟨e, h.1.symm, h.2.symm⟩
  | ok p =>
    simp only [hc, Option.some.injEq, Prod.mk.injEq] at h
    exact Or.inr ⟨p.1, p.2, rfl, h.1.symm, h.2.symm⟩

/-- A table is kept, or dropped. -/
theorem dropTable_eq_some {s s' : System} {name : String} {o : Outcome}
    (h : s.step (.dropTable name) = some (o, s')) :
    (∃ e, o = .refused e ∧ s' = s) ∨
      ∃ db, s.database.dropTable name = .ok db ∧ o = .done ∧ s' = { s with database := db } := by
  unfold step at h
  cases hd : s.database.dropTable name with
  | error e =>
    simp only [hd, Option.some.injEq, Prod.mk.injEq] at h
    exact Or.inl ⟨e, h.1.symm, h.2.symm⟩
  | ok db =>
    simp only [hd, Option.some.injEq, Prod.mk.injEq] at h
    exact Or.inr ⟨db, rfl, h.1.symm, h.2.symm⟩

/-- A commit that is not lost is what the transaction makes of it, which is not at once refused and
committed. -/
theorem commit_eq_some {s s' : System} {k : Nat} {o : Outcome} (h : s.commit k = some (o, s'))
    (hlost : ∀ e, o ≠ .lost e) :
    ∃ x, s.session? k = some x ∧ s' = s.put k x.commit.2 ∧
      (∀ time, o = .committed time ↔ x.commit.1 = .ok time) ∧
      ∀ e x', x.commit = (.error e, x') → x.transaction.state = .active →
        x'.transaction.state ≠ .committed := by
  obtain ⟨x, hx, h⟩ := Option.bind_eq_some_iff.mp h
  refine ⟨x, hx, ?_⟩
  rcases hc : x.commit with ⟨e | time, x'⟩ <;> rw [hc] at h <;>
    obtain ⟨rfl, rfl⟩ := Prod.mk.inj (Option.some.inj h)
  · have hnot : ¬(x.transaction.state = .active ∧ x'.transaction.state = .committed) :=
      fun hboth => hlost e (if_pos hboth)
    refine ⟨rfl, fun time => ⟨fun ho => ?_, fun ho => by cases ho⟩, fun e' x₁ heq ha hcommitted => ?_⟩
    · rw [if_neg hnot] at ho
      cases ho
    · obtain ⟨-, rfl⟩ := Prod.mk.inj heq
      exact hnot ⟨ha, hcommitted⟩
  · exact ⟨rfl, fun t => ⟨fun ho => congrArg _ (Outcome.committed.inj ho),
      fun ho => congrArg _ (Except.ok.inj ho)⟩, fun e x₁ heq => by cases heq⟩

/-- Who minds the others leaves a sound system. -/
theorem effect_of_minds {s : System} (h : s.Sound) {k : Nat} {x x' : Session}
    (hx : s.session? k = some x) (hm : Session.Minds x x' (s.others k)) :
    (s.put k x').Sound ∧ Effect s (s.put k x') := by
  have hdb := (session?_eq_some.mp hx).1
  refine ⟨h.put hx hm.sound hm.id_eq hm.silent.policy_eq, .silent x.transaction.id (h.id hx) ?_ ?_⟩
  · rw [← hdb]
    exact hm.silent
  · rw [← hdb]
    exact Nat.le_succ_of_le (Nat.le_of_eq hm.next_eq)

theorem effect_refl {s : System} (h : s.Sound) : Effect s s :=
  .silent firstTransaction (Nat.le_refl _)
    ((h.database.quiet_refl _).silent s.database.active s.database.nextTransaction)
    (Nat.le_succ _)

/-- The counters have room for one more. -/
structure Room (s : System) : Prop where
  commits : s.database.lastCommit + 1 < firstTransaction
  transactions : s.database.nextTransaction < neverDeleted

/-- **A commit** is an effect of its own, unless nothing was changed or it was refused. -/
theorem commit_cases {s s' : System} (h : s.Sound) (hr : s.Room) {k : Nat} {o : Outcome}
    (hs : s.commit k = some (o, s')) (hlost : ∀ e, o ≠ .lost e) : s'.Sound ∧ Effect s s' := by
  obtain ⟨x, hx, rfl, -, hnot⟩ := commit_eq_some hs hlost
  obtain ⟨hdb, -⟩ := session?_eq_some.mp hx
  rcases Session.minds_commit (h.session hx) (by rw [hdb]; exact hr.commits) with
    hm | ⟨x', hc, hw, hcommits, hsound⟩ | ⟨e, x', hc, hactive, hcommitted⟩
  · exact effect_of_minds h hx hm
  · rw [hc]
    refine ⟨?_, .committed k x x' hx ((h.session hx).active hw.active) (hdb ▸ hcommits) rfl⟩
    obtain ⟨decoded, b, c', -, -, hdb'⟩ := hcommits.database_eq
    exact h.put hx hsound (by rw [hcommits.transaction_eq]; rfl) (by rw [hdb']; rfl)
  · exact absurd hcommitted (hnot e x' hc hactive)

/-- **Every step** but a commit that is lost takes a sound system to a sound one. -/
theorem step_cases {s s' : System} (h : s.Sound) (hr : s.Room) {a : Action} (ha : a.Typed)
    {o : Outcome} (hs : s.step a = some (o, s')) (hlost : ∀ e, o ≠ .lost e) :
    s'.Sound ∧ Effect s s' := by
  cases a with
  | createTable name definitions =>
    rcases createTable_eq_some hs with ⟨e, -, rfl⟩ | ⟨id, db, hc, -, rfl⟩
    · exact ⟨h, effect_refl h⟩
    · refine ⟨⟨h.database.createTable h.capacity hr.commits hc, h.ids, ?_⟩,
        .created name definitions id hc⟩
      obtain ⟨t, b, c', -, -, -, hdb⟩ := Database.createTable_ok hc
      rw [hdb]
      exact h.capacity
  | dropTable name =>
    rcases dropTable_eq_some hs with ⟨e, -, rfl⟩ | ⟨db, hd, -, rfl⟩
    · exact ⟨h, effect_refl h⟩
    · refine ⟨⟨h.database.dropTable hr.commits hd, h.ids, ?_⟩, .dropped name hd⟩
      obtain ⟨id, b, c', -, -, rfl⟩ := Database.dropTable_ok hd
      exact h.capacity
  | «begin» =>
    simp only [step, Option.some.injEq, Prod.mk.injEq] at hs
    obtain ⟨-, rfl⟩ := hs
    refine ⟨⟨?_, fun x hx => ?_, h.capacity⟩, .silent firstTransaction (Nat.le_refl _)
      ((h.database.quiet_refl _).silent _ _) (Nat.le_refl _)⟩
    · have hperm : (s.transactions ++ [s.database.newTransaction.1]).Perm
          (s.database.newTransaction.1 :: s.transactions) := List.perm_append_singleton ..
      have hbegin := h.database.newTransaction hr.transactions
      rw [← activeOf_cons_of_active rfl] at hbegin
      exact hbegin.perm (hperm.filter _).symm
    · rcases List.mem_append.mp hx with hx | hx
      · exact h.ids x hx
      · obtain rfl := List.mem_singleton.mp hx
        exact h.database.next_ge
  | insert k table chunk =>
    obtain ⟨x, t, hx, ht, -, rfl⟩ := workOn_eq_some hs
    exact effect_of_minds h hx (Session.minds_insert (h.session hx) ht chunk)
  | delete k table rows =>
    obtain ⟨x, t, hx, ht, -, rfl⟩ := workOn_eq_some hs
    exact effect_of_minds h hx (Session.minds_delete (h.session hx) ht rows)
  | update k table column rows values =>
    obtain ⟨x, t, hx, ht, -, rfl⟩ := workOn_eq_some hs
    exact effect_of_minds h hx (Session.minds_update (h.session hx) ht column rows ha)
  | scan k table columns filters vectorSize =>
    obtain ⟨x, t, hx, ht, -, rfl⟩ := workOn_eq_some hs
    exact effect_of_minds h hx (Session.minds_scan (h.session hx) ht columns filters vectorSize)
  | commit k => exact commit_cases h hr hs hlost
  | rollback k =>
    obtain ⟨x, hx, -, rfl⟩ := work_eq_some hs
    exact effect_of_minds h hx (Session.minds_rollback (h.session hx))
  | cancel k =>
    unfold step at hs
    obtain ⟨x, hx, -, rfl⟩ := work_eq_some hs
    exact effect_of_minds h hx (Session.minds_cancel (h.session hx))
  | abandon k =>
    unfold step at hs
    obtain ⟨x, hx, -, rfl⟩ := work_eq_some hs
    exact effect_of_minds h hx (Session.minds_abandon (h.session hx))

end System
end ColumnStore
