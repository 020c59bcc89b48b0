/-
# What a step does

A step is an operation of one transaction, or it begins one, commits one or changes the schema
(`Deed`).  An operation short of a commit adds rows of its own, marks rows deleted, writes over rows,
or erases all that the transaction did (`Acts`); everything else leaves rows and records alone.  What
is said about stamps, about snapshots and about conflicts is derived from this one list of cases.
-/

import ColumnStore.Proofs.Database.Erasing
import ColumnStore.Proofs.Database.Runs

namespace ColumnStore

/-! ## The rows of a transaction -/

namespace LocalRows

/-- The rows in order, none in place of a row that is deleted. -/
def contents (l : LocalRows) : List (Option Row) :=
  (List.range l.count).map fun i => if l.isDeleted i then none else l.row? i

/-- **Rows that lie elsewhere are the same rows.** -/
theorem Keeps.contents_eq {l l' : LocalRows} {types : List ColumnType} (h : Keeps l l' types)
    (hl : l.Sound types) (hc : l'.count = l.count) : l'.contents = l.contents := by
  rw [contents, contents, hc]
  refine List.map_congr_left fun i hi => ?_
  rw [isDeleted, isDeleted, h.deleted_eq, row?_congr
    (h.sound.columns.length_eq.trans hl.columns.length_eq.symm)
    fun j => h.get?_eq j i (List.mem_range.mp hi)]

/-- Only rows that are there are marked deleted. -/
def Tidy (l : LocalRows) : Prop := ∀ i, l.isDeleted i = true → i < l.count

end LocalRows

/-- The rows that a transaction has inserted into a table, none in place of a row that it has deleted
again. -/
def Transaction.ownRows (x : Transaction) (table : TableId) : List (Option Row) :=
  ((x.locals.get? table).map LocalRows.contents).getD []

/-- Only local rows that are there are marked deleted. -/
def Transaction.Tidy (x : Transaction) : Prop :=
  ∀ table l, x.locals.get? table = some l → l.Tidy

/-! ## Operations -/

/-- A change that a transaction asks for. -/
inductive Request where
  | insert (c : Chunk)
  | delete (rows : List Nat)
  | update (column : Nat) (rows : List Nat) (values : ValueVector)

namespace Session

/-- Nothing is done to rows and records: values that were read are kept, local rows lie elsewhere,
the flag that stops the transaction is raised. -/
structure Idles (s s' : Session) : Prop where
  database_eq : ∃ decoded, s'.database = s.database.remember decoded
  transaction_eq : s'.transaction = { s.transaction with
    locals := s'.transaction.locals, cancel := s'.transaction.cancel }
  own_eq : ∀ table, s'.transaction.ownRows table = s.transaction.ownRows table
  tidy : s.transaction.Tidy → s'.transaction.Tidy

theorem idles_refl (s : Session) : Idles s s := ⟨⟨[], rfl⟩, rfl, fun _ => rfl, id⟩

theorem idles_remember (s : Session) (decoded : Decoded) :
    Idles s { s with database := s.database.remember decoded } :=
  ⟨⟨decoded, rfl⟩, rfl, fun _ => rfl, id⟩

/-- What an operation of a transaction short of a commit does, with the request if it asked for a
change and was not refused. -/
inductive Acts (s s' : Session) : Option (TableId × Request) → Prop
  | idles (h : Idles s s') : Acts s s' none
  /-- An insertion of no rows. -/
  | nothing {table : TableId} {c : Chunk} (hw : s.transaction.Writing) (hc : c.cardinality = 0)
    (h : s' = s) : Acts s s' (some (table, .insert c))
  | inserts {table : TableId} {t : Table} {c : Chunk} (hw : s.transaction.Writing)
    (ht : s.database.catalog.tables[table]? = some t) (h : Inserts s s' table t c) :
    Acts s s' (some (table, .insert c))
  | deletes {table : TableId} {t t' : Table} {rows marked : List Nat} (hw : s.transaction.Writing)
    (ht : s.database.catalog.tables[table]? = some t)
    (h : Deletes s s' table t t' rows marked) : Acts s s' (some (table, .delete rows))
  | overwrites {table : TableId} {t t' : Table} {column : Nat} {rows : List Nat}
    {values : ValueVector} {xs : List Scalar} {targets : List (Nat × Scalar)}
    {before : List Scalar} (hw : s.transaction.Writing)
    (ht : s.database.catalog.tables[table]? = some t)
    (hxs : values.firstValues? rows.length = some xs)
    (h : Overwrites s s' table t t' column (rows.zip xs) targets before) :
    Acts s s' (some (table, .update column rows values))
  /-- The commit of a transaction without changes. -/
  | closes (hw : s.transaction.Writing) (hundo : s.transaction.undo = [])
    (h : s' = s.committed s.database.lastCommit) : Acts s s' none
  | erases (hactive : s.transaction.state = .active) (h : RolledBack s s') : Acts s s' none

/-- The request that an operation fulfils, none when it is refused. -/
def granted {α : Type} (table : TableId) (q : Request) : Except TransactionError α →
    Option (TableId × Request)
  | .ok _ => some (table, q)
  | .error _ => none

variable {s : Session} {others : List Transaction} {table : TableId} {t : Table}

theorem acts_rollback (h : s.Sound others) : Acts s s.rollback.2 none := by
  by_cases hx : s.transaction.state = .active
  · obtain ⟨s', he, hr, -⟩ := rollback_erases (h.active hx) hx
    rw [he]
    exact .erases hx hr
  · rw [rollback]
    split
    · exact .idles (idles_refl s)
    · rw [Transaction.checkActive, if_neg hx]
      exact .idles (idles_refl s)

/-- Whoever may not write rolls back or is refused. -/
theorem acts_refused (h : s.Sound others) (hw : ¬s.transaction.Writing) {α : Type}
    (write : Session → Attempt TransactionError Session α) :
    ∃ e s', s.whileActive write = (.error e, s') ∧ Acts s s' none := by
  by_cases hx : s.transaction.state = .active
  · have hc : s.transaction.cancel.raised = true := by
      rw [← Bool.not_eq_false]
      exact fun hc => hw ⟨hx, hc⟩
    exact ⟨_, _, whileActive_cancelled (h.active hx) hx hc write, acts_rollback h⟩
  · obtain ⟨e, he⟩ := whileActive_ended hx write
    exact ⟨e, s, he, .idles (idles_refl s)⟩

/-- The local rows of a table lie elsewhere. -/
theorem Refused.idles {s' : Session} (h : Refused s s' table t)
    (hs : s.database.Sound (s.transaction :: others))
    (ht : s.database.catalog.tables[table]? = some t) : Idles s s' := by
  refine ⟨⟨[], h.database_eq⟩, ?_, fun j => ?_, fun htidy j l hl => ?_⟩
  · rw [h.transaction_eq]
  · by_cases hj : j = table
    · subst hj
      obtain ⟨l', hl', hk, hc⟩ := h.kept
      have hold := locals_ok hs ht
      have hl'' : s'.transaction.locals.get? j = some l' := hl'
      rw [Transaction.ownRows, Transaction.ownRows, hl'']
      cases hl : s.transaction.locals.get? j with
      | none =>
        have hnone : s.locals? j = none := hl
        rw [hnone] at hk hc
        rw [Option.map_some, Option.getD_some, LocalRows.contents, hc]
        rfl
      | some l =>
        have hsome : s.locals? j = some l := hl
        rw [hsome] at hk hc hold
        exact hk.contents_eq hold.1 hc
    · have := h.others_eq j hj
      rw [Transaction.ownRows, Transaction.ownRows]
      unfold locals? at this
      rw [this]
  · by_cases hj : j = table
    · subst hj
      obtain ⟨l', hl', hk, hc⟩ := h.kept
      obtain rfl := Option.some.inj (hl.symm.trans hl')
      intro i hi
      rw [LocalRows.isDeleted, hk.deleted_eq] at hi
      rw [hc]
      cases hold : s.locals? j with
      | none =>
        rw [hold] at hi
        cases hi
      | some before =>
        rw [hold] at hi
        exact htidy j before hold i hi
    · exact htidy j l ((h.others_eq j hj).symm.trans hl)

theorem acts_insert (h : s.Sound others) (ht : s.database.catalog.tables[table]? = some t)
    (c : Chunk) : Acts s (s.insert table c).2 (granted table (.insert c) (s.insert table c).1) := by
  by_cases hw : s.transaction.Writing
  · have hs := h.active hw.active
    rcases insert_cases hs hw ht c with ⟨he, hc⟩ | ⟨e, s', he, hr, -⟩ | ⟨s', he, hr, -⟩
    · rw [he]
      exact .nothing hw hc rfl
    · rw [he]
      exact .idles (hr.idles hs ht)
    · rw [he]
      exact .inserts hw ht hr
  · obtain ⟨e, s', he, ha⟩ := acts_refused h hw _
    rw [insert, he]
    exact ha

theorem acts_delete (h : s.Sound others) (ht : s.database.catalog.tables[table]? = some t)
    (rows : List Nat) :
    Acts s (s.delete table rows).2 (granted table (.delete rows) (s.delete table rows).1) := by
  by_cases hw : s.transaction.Writing
  · rcases delete_cases (h.active hw.active) hw ht rows with
      ⟨e, he⟩ | ⟨n, s', t', marked, he, hr, -, -⟩
    · rw [he]
      exact .idles (idles_refl s)
    · rw [he]
      exact .deletes hw ht hr
  · obtain ⟨e, s', he, ha⟩ := acts_refused h hw _
    rw [delete, he]
    exact ha

theorem acts_update (h : s.Sound others) (ht : s.database.catalog.tables[table]? = some t)
    (column : Nat) (rows : List Nat) {values : ValueVector} (hvalues : values.Typed) :
    Acts s (s.update table column rows values).2
      (granted table (.update column rows values) (s.update table column rows values).1) := by
  by_cases hw : s.transaction.Writing
  · rcases update_cases (h.active hw.active) hw ht column rows hvalues with
      ⟨e, decoded, he, -⟩ | ⟨n, s', t', xs, targets, before, he, hxs, hr, -, -⟩
    · rw [he]
      exact .idles (idles_remember s decoded)
    · rw [he]
      exact .overwrites hw ht hxs hr
  · obtain ⟨e, s', he, ha⟩ := acts_refused h hw _
    rw [update, he]
    exact ha

theorem acts_scan (h : s.Sound others) (ht : s.database.catalog.tables[table]? = some t)
    (columns : List Nat) (filters : List Filter) (vectorSize : Nat) :
    Acts s (s.onDatabase fun db =>
      db.scanTable s.transaction table columns filters vectorSize).2 none := by
  obtain ⟨decoded, he, -⟩ := scanTable_state h ht columns filters vectorSize
  have := idles_remember s decoded
  rw [← he] at this
  exact .idles this

theorem acts_cancel (s : Session) : Acts s { s with
    transaction := { s.transaction with cancel := s.transaction.cancel.cancel } } none :=
  .idles ⟨⟨[], rfl⟩, rfl, fun _ => rfl, id⟩

theorem acts_abandon (h : s.Sound others) : Acts s { if s.transaction.state = .active then
    s.rollback.2 else s with database := s.abandon } none := by
  unfold abandon
  split
  · exact acts_rollback h
  · exact .idles (idles_refl s)

/-- **A commit** of changes goes through or is lost; else it is an operation like others, and one that
succeeds when there are no changes. -/
theorem acts_commit (h : s.Sound others) (hlt : s.database.lastCommit + 1 < firstTransaction) :
    (Acts s s.commit.2 none ∧ ∀ time, s.commit.1 = .ok time → s.transaction.Writing ∧
      s.transaction.undo = [] ∧ time = s.database.lastCommit ∧ s.commit.2 = s.committed time) ∨
      (∃ s', s.commit = (.ok (s.database.lastCommit + 1), s') ∧ s.transaction.Writing ∧
        Commits s s' (s.database.lastCommit + 1)) ∨
      ∃ e s', s.commit = (.error e, s') ∧ s.transaction.state = .active ∧
        s'.transaction.state = .committed := by
  by_cases hw : s.transaction.Writing
  · have hout := commit_outcome (h.active hw.active) hw hlt
    generalize s.commit = r at hout
    cases hout with
    | dropped name hd => exact Or.inl ⟨acts_rollback h, fun _ ht => by cases ht⟩
    | empty hu sound =>
      refine Or.inl ⟨.closes hw hu rfl, fun _ ht => ?_⟩
      obtain rfl := Except.ok.inj ht
      exact ⟨hw, hu, rfl, rfl⟩
    | refused e decoded sound =>
      exact Or.inl ⟨.idles (idles_remember s decoded), fun _ ht => by cases ht⟩
    | done s' hc sound => exact Or.inr (Or.inl ⟨s', rfl, hw, hc⟩)
    | lost e s' hstate => exact Or.inr (Or.inr ⟨e, s', rfl, hw.active, hstate⟩)
  · obtain ⟨e, s', he, ha⟩ := acts_refused h hw _
    refine Or.inl ?_
    rw [commit, he]
    exact ⟨ha, fun _ ht => by cases ht⟩

/-- Whoever is active after an operation was so before. -/
theorem Acts.state {s s' : Session} {q : Option (TableId × Request)} (h : Acts s s' q)
    (hx : s'.transaction.state = .active) :
    s.transaction.state = .active := by
  cases h with
  | idles h =>
    rw [h.transaction_eq] at hx
    exact hx
  | nothing hw hc h => exact h ▸ hx
  | inserts hw ht h => exact hw.active
  | deletes hw ht h => exact hw.active
  | overwrites hw ht hxs h => exact hw.active
  | closes hw hundo h => exact hw.active
  | erases hactive h => exact hactive

/-- Whoever has ended does nothing to the tables. -/
theorem Acts.catalog_of_ended {s s' : Session} {q : Option (TableId × Request)}
    (h : Acts s s' q) (hx : s.transaction.state ≠ .active) :
    s'.database.catalog = s.database.catalog := by
  cases h with
  | idles h =>
    obtain ⟨decoded, hdb⟩ := h.database_eq
    rw [hdb]
    rfl
  | nothing hw hc h => rw [h]
  | inserts hw ht h => exact absurd hw.active hx
  | deletes hw ht h => exact absurd hw.active hx
  | overwrites hw ht hxs h => exact absurd hw.active hx
  | closes hw hundo h => exact absurd hw.active hx
  | erases hactive h => exact absurd hactive hx

end Session

/-! ## Steps -/

namespace Action

/-- The transaction that does something. -/
def worker? : Action → Option Nat
  | .insert k .. | .delete k .. | .update k .. | .scan k .. | .commit k | .rollback k | .cancel k
  | .abandon k => some k
  | _ => none

/-- The request that was fulfilled. -/
def request? : Action → Outcome → Option (TableId × Request)
  | .insert _ table c, .count _ => some (table, .insert c)
  | .delete _ table rows, .count _ => some (table, .delete rows)
  | .update _ table column rows values, .count _ => some (table, .update column rows values)
  | _, _ => none

end Action

namespace System

/-- What a step does. -/
inductive Deed (s s' : System) : Action → Outcome → Prop
  | acts {a : Action} {o : Outcome} (k : Nat) (x x' : Session) (ha : a.worker? = some k)
    (hx : s.session? k = some x) (hm : Session.Minds x x' (s.others k))
    (h : x.Acts x' (a.request? o)) (hcommit : ∀ time, o = .committed time →
      x.transaction.Writing ∧ x.transaction.undo = [] ∧ time = s.database.lastCommit ∧
        x' = x.committed time)
    (hput : s' = s.put k x') : Deed s s' a o
  | begun (h : s' = ⟨s.database.newTransaction.2, s.transactions ++ [s.database.newTransaction.1]⟩) :
    Deed s s' .begin .done
  | committed (k : Nat) (x x' : Session) (hx : s.session? k = some x)
    (hs : x.database.Sound (x.transaction :: activeOf (s.others k)))
    (hw : x.transaction.Writing) (h : Session.Commits x x' (s.database.lastCommit + 1))
    (hput : s' = s.put k x') : Deed s s' (.commit k) (.committed (s.database.lastCommit + 1))
  | created (name : String) (definitions : List ColumnDefinition) (id : TableId)
    (h : s.database.createTable name definitions = .ok (id, s'.database))
    (hx : s'.transactions = s.transactions) : Deed s s' (.createTable name definitions) (.created id)
  | dropped (name : String) (h : s.database.dropTable name = .ok s'.database)
    (hx : s'.transactions = s.transactions) : Deed s s' (.dropTable name) .done
  | refused (a : Action) (e : TransactionError) (ha : a.worker? = none) (h : s' = s) :
    Deed s s' a (.refused e)

theorem request?_outcome {α : Type} (f : α → Outcome) (r : Except TransactionError α)
    {a : Action} {t : TableId} {q : Request} (hok : ∀ x, a.request? (f x) = some (t, q))
    (herror : ∀ e, a.request? (.refused e) = none) :
    a.request? (outcome f r) = Session.granted t q r := by
  cases r with
  | ok x => exact hok x
  | error e => exact herror e

theorem outcome_ne {α : Type} {f : α → Outcome} {r : Except TransactionError α} {P : Stamp → Prop}
    (hf : ∀ x time, f x ≠ .committed time) : ∀ time, outcome f r = .committed time → P time := by
  intro time ho
  cases r with
  | ok x => exact absurd ho (hf x time)
  | error e => cases ho

/-- **A commit** that is not lost goes through, or is an operation like others. -/
theorem commit_deed {s s' : System} (h : s.Sound) (hr : s.Room) {k : Nat} {o : Outcome}
    (hs : s.step (.commit k) = some (o, s')) (hlost : ∀ e, o ≠ .lost e) :
    Deed s s' (.commit k) o := by
  obtain ⟨x, hx, rfl, hok, hnot⟩ := commit_eq_some hs hlost
  obtain ⟨hdb, -⟩ := session?_eq_some.mp hx
  have hlt : x.database.lastCommit + 1 < firstTransaction := by
    rw [hdb]
    exact hr.commits
  have hdone : ∀ x', x.commit = (.ok (x.database.lastCommit + 1), x') → x.transaction.Writing →
      Session.Commits x x' (x.database.lastCommit + 1) →
        Deed s (s.put k x.commit.2) (.commit k) o := by
    intro x' hc hw hcommits
    obtain rfl := (hok _).mpr (congrArg Prod.fst hc)
    rw [hc]
    rw [hdb] at hcommits ⊢
    exact .committed k x x' hx ((h.session hx).active hw.active) hw hcommits rfl
  rcases Session.acts_commit (h.session hx) hlt with ⟨hacts, hempty⟩ | ⟨x', hc, hw, hcommits⟩ |
    ⟨e, x', hc, hactive, hcommitted⟩
  · rcases Session.minds_commit (h.session hx) hlt with hm | ⟨x', hc, hw, hcommits, -⟩ |
      ⟨e, x', hc, hactive, hcommitted⟩
    · refine .acts k x _ rfl hx hm hacts (fun time ho => ?_) rfl
      rw [← hdb]
      exact hempty time ((hok time).mp ho)
    · exact hdone x' hc hw hcommits
    · exact absurd hcommitted (hnot e x' hc hactive)
  · exact hdone x' hc hw hcommits
  · exact absurd hcommitted (hnot e x' hc hactive)

/-- **Every step** but a commit that is lost is one of these. -/
theorem step_deed {s s' : System} (h : s.Sound) (hr : s.Room) {a : Action} (ha : a.Typed)
    {o : Outcome} (hs : s.step a = some (o, s')) (hlost : ∀ e, o ≠ .lost e) : Deed s s' a o := by
  cases a with
  | createTable name definitions =>
    rcases createTable_eq_some hs with ⟨e, rfl, rfl⟩ | ⟨id, db, hc, rfl, rfl⟩
    · exact .refused _ e rfl rfl
    · exact .created name definitions id hc rfl
  | dropTable name =>
    rcases dropTable_eq_some hs with ⟨e, rfl, rfl⟩ | ⟨db, hd, rfl, rfl⟩
    · exact .refused _ e rfl rfl
    · exact .dropped name hd rfl
  | «begin» =>
    simp only [step, Option.some.injEq, Prod.mk.injEq] at hs
    obtain ⟨rfl, rfl⟩ := hs
    exact .begun rfl
  | insert k table chunk =>
    obtain ⟨x, t, hx, ht, rfl, rfl⟩ := workOn_eq_some hs
    refine .acts k x _ rfl hx (Session.minds_insert (h.session hx) ht chunk) ?_
      (outcome_ne fun _ _ h => Outcome.noConfusion h) rfl
    rw [request?_outcome (t := table) (q := .insert chunk) _ _ (fun _ => rfl) fun _ => rfl]
    exact Session.acts_insert (h.session hx) ht chunk
  | delete k table rows =>
    obtain ⟨x, t, hx, ht, rfl, rfl⟩ := workOn_eq_some hs
    refine .acts k x _ rfl hx (Session.minds_delete (h.session hx) ht rows) ?_
      (outcome_ne fun _ _ h => Outcome.noConfusion h) rfl
    rw [request?_outcome (t := table) (q := .delete rows) _ _ (fun _ => rfl) fun _ => rfl]
    exact Session.acts_delete (h.session hx) ht rows
  | update k table column rows values =>
    obtain ⟨x, t, hx, ht, rfl, rfl⟩ := workOn_eq_some hs
    refine .acts k x _ rfl hx (Session.minds_update (h.session hx) ht column rows ha) ?_
      (outcome_ne fun _ _ h => Outcome.noConfusion h) rfl
    rw [request?_outcome (t := table) (q := .update column rows values) _ _ (fun _ => rfl)
      fun _ => rfl]
    exact Session.acts_update (h.session hx) ht column rows ha
  | scan k table columns filters vectorSize =>
    obtain ⟨x, t, hx, ht, rfl, rfl⟩ := workOn_eq_some hs
    exact .acts k x _ rfl hx (Session.minds_scan (h.session hx) ht columns filters vectorSize)
      (Session.acts_scan (h.session hx) ht columns filters vectorSize)
      (outcome_ne fun _ _ h => Outcome.noConfusion h) rfl
  | commit k => exact commit_deed h hr hs hlost
  | rollback k =>
    obtain ⟨x, hx, rfl, rfl⟩ := work_eq_some hs
    exact .acts k x _ rfl hx (Session.minds_rollback (h.session hx))
      (Session.acts_rollback (h.session hx)) (outcome_ne fun _ _ h => Outcome.noConfusion h) rfl
  | cancel k =>
    unfold step at hs
    obtain ⟨x, hx, rfl, rfl⟩ := work_eq_some hs
    exact .acts k x _ rfl hx (Session.minds_cancel (h.session hx)) (Session.acts_cancel x)
      (outcome_ne fun _ _ h => Outcome.noConfusion h) rfl
  | abandon k =>
    unfold step at hs
    obtain ⟨x, hx, rfl, rfl⟩ := work_eq_some hs
    exact .acts k x _ rfl hx (Session.minds_abandon (h.session hx))
      (Session.acts_abandon (h.session hx)) (outcome_ne fun _ _ h => Outcome.noConfusion h) rfl

end System
end ColumnStore
