/-
# Transactions on damaged storage

What tables and records owe each other does not depend on what can be read: tables are sound, and
the records of a transaction name tables, rows and local rows that are there (`Session.Formed`).
Rolling back keeps that even where a change cannot be taken back, and is never refused
(`rollback_runs`).
-/

import ColumnStore.Proofs.Database.Committing
import ColumnStore.Proofs.Database.Schema
import ColumnStore.Proofs.Table.Damage

namespace ColumnStore

/-- All tables are sound. -/
def Catalog.Formed (c : Catalog) : Prop :=
  ∀ (id : Nat) (t : Table), c.tables[id]? = some t → t.Sound

/-- A transaction that has made the changes `undo`, all of which can be found again. -/
structure Transaction.Formed (x : Transaction) (c : Catalog) (undo : List UndoRecord) : Prop where
  undoable : Undoable c.types? undo
  locals : LocalsAgree c.types? x.locals undo
  within : ∀ change ∈ undo, change.Within c

/-- A transaction at work whose changes can be found again as long as it is active. -/
structure Session.Formed (s : Session) : Prop where
  catalog : s.database.catalog.Formed
  transaction : s.transaction.state = .active →
    s.transaction.Formed s.database.catalog s.transaction.undo

/-! ## Growing tables -/

/-- Tables that may have gained rows, and other tables. -/
def Catalog.Grows (c c' : Catalog) : Prop :=
  ∀ (id : Nat) (t : Table), c.tables[id]? = some t → ∃ t', c'.tables[id]? = some t' ∧
    t'.definitions = t.definitions ∧ t'.columns.length = t.columns.length ∧ t.rows ≤ t'.rows

namespace Catalog

variable {c c' c'' : Catalog}

theorem Grows.refl (c : Catalog) : Grows c c := fun _ t ht => ⟨t, ht, rfl, rfl, Nat.le_refl _⟩

theorem Grows.trans (h : Grows c c') (h' : Grows c' c'') : Grows c c'' := by
  intro id t ht
  obtain ⟨t', ht', hdefs, hlen, hrows⟩ := h id t ht
  obtain ⟨t'', ht'', hdefs', hlen', hrows'⟩ := h' id t' ht'
  exact ⟨t'', ht'', hdefs'.trans hdefs, hlen'.trans hlen, Nat.le_trans hrows hrows'⟩

theorem Grows.types (h : Grows c c') (id : TableId) (types : List ColumnType)
    (htypes : c.types? id = some types) : c'.types? id = some types := by
  obtain ⟨t, ht, rfl⟩ := Option.map_eq_some_iff.mp htypes
  obtain ⟨t', ht', hdefs, -⟩ := h id t ht
  rw [types?, ht', Option.map_some, Table.types, Table.types, hdefs]

/-- Tables to whose rows something was done. -/
def Keeps (c c' : Catalog) : Prop := Each (fun _ => Table.Keeps) c c'

theorem Formed.keeps_refl (h : c.Formed) : Keeps c c :=
  ⟨rfl, rfl, fun j t ht => ⟨t, ht, Table.Keeps.refl (h j t ht)⟩⟩

theorem Formed.keeps_setTable (h : c.Formed) {id : TableId} {t t' : Table}
    (ht : c.tables[id]? = some t) (hk : Table.Keeps t t') : Keeps c (c.setTable id t') :=
  each_setTable ht hk fun j u _ hu => Table.Keeps.refl (h j u hu)

theorem Keeps.trans (h : Keeps c c') (h' : Keeps c' c'') : Keeps c c'' :=
  Each.trans h h' fun _ _ _ _ hk hk' => Table.Keeps.trans hk hk'

theorem Keeps.formed (hk : Keeps c c') (h : c.Formed) : c'.Formed := by
  intro id t' ht'
  obtain ⟨t, ht, htk⟩ := Each.of_some hk ht'
  exact htk.sound (h id t ht)

theorem Keeps.grows (h : Keeps c c') : Grows c c' := by
  intro id t ht
  obtain ⟨t', ht', hk⟩ := h.tables id t ht
  exact ⟨t', ht', hk.definitions_eq, hk.columns.length_eq.symm, Nat.le_of_eq hk.rows_eq.symm⟩

end Catalog

theorem UndoRecord.Within.grows {c c' : Catalog} {change : UndoRecord} (h : change.Within c)
    (hc : c.Grows c') : change.Within c' := by
  cases change with
  | insert => trivial
  | delete table rows =>
    obtain ⟨t, ht, hrows⟩ := h
    obtain ⟨t', ht', -, -, hle⟩ := hc table t ht
    exact ⟨t', ht', fun r hr => Nat.lt_of_lt_of_le (hrows r hr) hle⟩
  | update table column rows before =>
    obtain ⟨t, ht, hcolumn, hlen, hrows⟩ := h
    obtain ⟨t', ht', -, hcols, hle⟩ := hc table t ht
    exact ⟨t', ht', hcols ▸ hcolumn, hlen, fun r hr => Nat.lt_of_lt_of_le (hrows r hr) hle⟩

theorem LocalsAgree.mono {types? types?' : TableId → Option (List ColumnType)}
    {locals : LocalTables} {undo : List UndoRecord} (h : LocalsAgree types? locals undo)
    (ht : ∀ id types, types? id = some types → types?' id = some types) :
    LocalsAgree types?' locals undo := by
  refine ⟨h.nodup, fun table => ?_⟩
  have hrows := h.rows table
  cases hl : locals.get? table with
  | none =>
    rw [hl] at hrows
    exact hrows
  | some l =>
    rw [hl] at hrows
    obtain ⟨⟨types, htypes, hs⟩, hc⟩ := hrows
    exact ⟨⟨types, ht _ _ htypes, hs⟩, hc⟩

namespace Transaction

variable {x : Transaction} {c c' : Catalog} {undo : List UndoRecord} {change : UndoRecord}

theorem Formed.of_locals (h : x.Formed c undo) {x' : Transaction} (hl : x'.locals = x.locals) :
    x'.Formed c undo := ⟨h.undoable, hl ▸ h.locals, h.within⟩

/-- **Changes stay where they are** when tables grow. -/
theorem Formed.grows (h : x.Formed c undo) (hc : c.Grows c') : x.Formed c' undo :=
  ⟨h.undoable.mono hc.types, h.locals.mono hc.types, fun ch hm => (h.within ch hm).grows hc⟩

/-- Local rows of a table in place of those that were there. -/
theorem Formed.setLocal (h : x.Formed c undo) {table : TableId} {t : Table}
    (ht : c.tables[table]? = some t) {l : LocalRows} (hl : l.Sound t.types)
    (hcount : l.count = localCount table undo) : (x.setLocal table l).Formed c undo :=
  ⟨h.undoable, h.locals.set (by rw [Catalog.types?, ht]; rfl) hl hcount fun _ _ => rfl, h.within⟩

/-- A change that adds no local rows can be left out. -/
theorem Formed.init (h : x.Formed c (undo ++ [change])) (ha : ∀ j, change.added j = 0) :
    x.Formed c undo :=
  ⟨h.undoable.init.1, h.locals.of_count fun j => by rw [localCount_snoc, ha j, Nat.add_zero],
    fun ch hm => h.within ch (List.mem_append_left _ hm)⟩

/-- A change that adds no local rows is made. -/
theorem Formed.snoc (h : x.Formed c undo) (ha : ∀ j, change.added j = 0)
    (hc : change.UndoableAfter c.types? undo) (hw : change.Within c) :
    x.Formed c (undo ++ [change]) :=
  ⟨h.undoable.snoc hc, h.locals.of_count fun j => by rw [localCount_snoc, ha j, Nat.add_zero],
    fun ch hm => (List.mem_append.mp hm).elim (h.within ch) fun hm => List.mem_singleton.mp hm ▸ hw⟩

/-- Local rows are added and recorded. -/
theorem Formed.insert (h : x.Formed c undo) {table : TableId} {t : Table}
    (ht : c.tables[table]? = some t) {l : LocalRows} (hl : l.Sound t.types) {start n : Nat}
    (hstart : start = localCount table undo) (hn : 0 < n) (hcount : l.count = start + n) :
    (x.setLocal table l).Formed c (undo ++ [.insert table start n]) := by
  have htypes : c.types? table = some t.types := by rw [Catalog.types?, ht]; rfl
  refine ⟨h.undoable.snoc ⟨by rw [htypes]; rfl, hstart, hn⟩,
    h.locals.set htypes hl ?_ fun j hj => ?_, fun ch hm =>
      (List.mem_append.mp hm).elim (h.within ch) fun hm => List.mem_singleton.mp hm ▸ trivial⟩
  · rw [localCount_snoc, UndoRecord.added, if_pos rfl, hcount, hstart]
  · rw [localCount_snoc, UndoRecord.added, if_neg (Ne.symm hj), Nat.add_zero]

/-- The local rows of a table fit it and are as many as were added. -/
theorem Formed.local_ok (h : x.Formed c undo) {table : TableId} {t : Table}
    (ht : c.tables[table]? = some t) {l : LocalRows} (hl : x.locals.get? table = some l) :
    l.Sound t.types ∧ l.count = localCount table undo := by
  have hrows := h.locals.rows table
  rw [hl] at hrows
  obtain ⟨⟨types, htypes, hs⟩, hc⟩ := hrows
  rw [Catalog.types?, ht] at htypes
  obtain rfl := Option.some.inj htypes
  exact ⟨hs, hc⟩

/-- The local rows of a table that a transaction goes on with. -/
theorem Formed.getD_locals (h : x.Formed c undo) (hc : c.Formed) {table : TableId} {t : Table}
    (ht : c.tables[table]? = some t) :
    ((x.locals.get? table).getD (.new t.types)).Sound t.types ∧
      ((x.locals.get? table).getD (.new t.types)).count = localCount table undo := by
  cases hl : x.locals.get? table with
  | some l => exact h.local_ok ht hl
  | none =>
    have hnone : LocalsAt _ _ (x.locals.get? table) := h.locals.rows table
    rw [hl] at hnone
    exact ⟨LocalRows.sound_new fun type hm => Table.plain_of_sound (hc table t ht) hm, hnone.symm⟩

end Transaction

namespace Session

variable {s s' s'' : Session} {undo : List UndoRecord} {table : TableId} {t : Table}

/-- What is done to a table with what was read of it. -/
theorem onDatabase_changeReading {α : Type} (ht : s.database.catalog.tables[table]? = some t)
    {f : Source → Table → Reading (Attempt TransactionError Table α)}
    {r : Except TransactionError α} {t' : Table}
    (hf : (f s.database.source t).result = .ok (r, t')) :
    ∃ db, (s.onDatabase fun db => db.changeReading table f) = (r, ⟨db, s.transaction⟩) ∧
      db = { s.database with
        catalog := s.database.catalog.setTable table t', decoded := db.decoded } :=
  ⟨_, by rw [onDatabase, Database.changeReading_eq ht hf], rfl⟩

/-! ## Rolling back -/

/-- A change of a transaction on the tables was taken back, or as much of it as could be. -/
structure Unwinds (s s' : Session) (undo : List UndoRecord) : Prop where
  transaction_eq : s'.transaction = { s.transaction with locals := s'.transaction.locals }
  policy_eq : s'.database.policy = s.database.policy
  catalog : s.database.catalog.Keeps s'.database.catalog
  formed : s'.transaction.Formed s'.database.catalog undo

theorem unwinds_refl (hc : s.database.catalog.Formed)
    (h : s.transaction.Formed s.database.catalog undo) : Unwinds s s undo :=
  ⟨rfl, rfl, hc.keeps_refl, h⟩

theorem Unwinds.trans {undo' : List UndoRecord} (h : Unwinds s s' undo)
    (h' : Unwinds s' s'' undo') : Unwinds s s'' undo' where
  transaction_eq := by rw [h'.transaction_eq, h.transaction_eq]
  policy_eq := h'.policy_eq.trans h.policy_eq
  catalog := h.catalog.trans h'.catalog
  formed := h'.formed

/-- Local rows of a table in place of those that were there. -/
theorem unwinds_setLocal (hc : s.database.catalog.Formed)
    (h : s.transaction.Formed s.database.catalog undo)
    (ht : s.database.catalog.tables[table]? = some t) {l : LocalRows} (hl : l.Sound t.types)
    (hcount : l.count = localCount table undo) : Unwinds s (s.setLocal table l) undo :=
  ⟨rfl, rfl, hc.keeps_refl, h.setLocal ht hl hcount⟩

/-- A table to whose rows something was done. -/
theorem unwinds_setTable (hc : s.database.catalog.Formed)
    (h : s.transaction.Formed s.database.catalog undo)
    (ht : s.database.catalog.tables[table]? = some t) {t' : Table} (hk : Table.Keeps t t')
    {db : Database} (hdb : db.catalog = s.database.catalog.setTable table t')
    (hp : db.policy = s.database.policy) : Unwinds s ⟨db, s.transaction⟩ undo := by
  have hkeeps := hc.keeps_setTable ht hk
  rw [← hdb] at hkeeps
  exact ⟨rfl, hp, hkeeps, h.grows hkeeps.grows⟩

theorem table_of_types {c : Catalog} {types : List ColumnType} (h : c.types? table = some types) :
    ∃ t, c.tables[table]? = some t ∧ t.types = types := Option.map_eq_some_iff.mp h

/-- **Insertions are taken back.** -/
theorem undoInsert_unwinds {start n : Nat} (hc : s.database.catalog.Formed)
    (h : s.transaction.Formed s.database.catalog (undo ++ [.insert table start n])) :
    ∃ s', s.undoInsert table start n = (.ok (), s') ∧ Unwinds s s' undo := by
  obtain ⟨hundo, hsome, hstart, hn⟩ := h.undoable.init
  obtain ⟨t, ht⟩ := table_of_isSome hsome
  have hcount := localCount_snoc table undo (.insert table start n)
  rw [UndoRecord.added, if_pos rfl] at hcount
  simp only [undoInsert, locals?]
  cases hl : s.transaction.locals.get? table with
  | none =>
    have hnone : LocalsAt _ _ (s.transaction.locals.get? table) := h.locals.rows table
    rw [hl] at hnone
    have : localCount table (undo ++ [.insert table start n]) = 0 := hnone
    omega
  | some l =>
    obtain ⟨hs, hlc⟩ := h.local_ok ht hl
    obtain ⟨hs', hcount'⟩ := LocalRows.truncate_ok hs (n := start) (by omega)
    refine ⟨_, if_pos (by omega), rfl, rfl, hc.keeps_refl, hundo, ?_, fun ch hm =>
      h.within ch (List.mem_append_left _ hm)⟩
    refine h.locals.set (types_ok ht) hs' (hcount'.trans hstart) fun j hj => ?_
    rw [localCount_snoc, UndoRecord.added, if_neg (Ne.symm hj), Nat.add_zero]

theorem unwinds_undeleted (hc : s.database.catalog.Formed)
    (h : s.transaction.Formed s.database.catalog undo)
    (ht : s.database.catalog.tables[table]? = some t) (rows : List Nat) :
    Unwinds s (s.undeleted table rows) undo := by
  unfold undeleted locals?
  cases hl : s.transaction.locals.get? table with
  | none => exact unwinds_refl hc h
  | some l =>
    obtain ⟨hs, hcount⟩ := h.local_ok ht hl
    obtain ⟨hs', hcount'⟩ := undelete_fold hs (rows.reverse.filter isLocalRow)
    exact unwinds_setLocal hc h ht hs' (hcount'.trans hcount)

/-- **Deletions are taken back** as far as they are found. -/
theorem undoDelete_unwinds {rows : List Nat} (hc : s.database.catalog.Formed)
    (h : s.transaction.Formed s.database.catalog (undo ++ [.delete table rows])) :
    Unwinds s (s.undoDelete table rows).2 undo ∧
      ∀ e, (s.undoDelete table rows).1 = .error e → e.isRefusal = false := by
  obtain ⟨t, ht⟩ := table_of_isSome h.undoable.init.2
  have hlocal := unwinds_undeleted hc (h.init fun _ => rfl) ht rows
  have hundo_eq : s.undoDelete table rows =
      (s.undeleted table rows).onDatabase fun db => db.change table fun t =>
        t.revertDelete (s.undeleted table rows).transaction.id (committedRows rows).reverse := rfl
  have hdb : (s.undeleted table rows).database = s.database := by
    unfold undeleted
    split <;> rfl
  rw [hundo_eq]
  generalize s.undeleted table rows = s₁ at hlocal hdb ⊢
  rw [← hdb] at ht hc
  obtain ⟨hk, he⟩ := Table.revertDelete_runs (hc table t ht) s₁.transaction.id
    (committedRows rows).reverse
  rw [onDatabase, Database.change_eq ht]
  exact ⟨hlocal.trans (unwinds_setTable hc hlocal.formed ht hk rfl rfl), he⟩

/-- A row of an update that can be found again. -/
def Placed (undo : List UndoRecord) (table : TableId) (t : Table) (column : Nat)
    (p : Nat × Scalar) : Prop :=
  if isLocalRow p.1 then
    p.1 - firstLocalRow < localCount table undo ∧
      ∃ type, t.types[column]? = some type ∧ p.2.fits type = true
  else p.1 < t.rows

theorem Placed.keeps {t' : Table} {column : Nat} {p : Nat × Scalar}
    (h : Placed undo table t column p) (hk : Table.Keeps t t') : Placed undo table t' column p := by
  unfold Placed at h ⊢
  rw [hk.types_eq, hk.rows_eq]
  exact h

/-- **The update of a local row is taken back.** -/
theorem undoLocalUpdate_unwinds {column : Nat} {p : Nat × Scalar} (hlocal : isLocalRow p.1 = true)
    (hc : s.database.catalog.Formed) (h : s.transaction.Formed s.database.catalog undo)
    (ht : s.database.catalog.tables[table]? = some t)
    (hp : Placed undo table t column p) :
    ∃ s', s.undoLocalUpdate table column (p.1 - firstLocalRow) p.2 = (.ok (), s') ∧
      Unwinds s s' undo := by
  rw [Placed, if_pos hlocal] at hp
  obtain ⟨hlt, type, htype, hfit⟩ := hp
  simp only [undoLocalUpdate, locals?]
  cases hl : s.transaction.locals.get? table with
  | none =>
    have hnone : LocalsAt _ _ (s.transaction.locals.get? table) := h.locals.rows table
    rw [hl] at hnone
    have : localCount table undo = 0 := hnone
    omega
  | some l =>
    obtain ⟨hs, hcount⟩ := h.local_ok ht hl
    obtain ⟨l', hset, hs', hcount', -, -⟩ :=
      LocalRows.set_ok hs htype (i := p.1 - firstLocalRow) (by omega) hfit
    have hcontains : l.contains (p.1 - firstLocalRow) = true := decide_eq_true (by omega)
    exact ⟨s.setLocal table l', by simp only [hcontains, if_true, hset, mapError_ok],
      unwinds_setLocal hc h ht hs' (hcount'.trans hcount)⟩

/-- **Updates are taken back** up to the first that cannot be. -/
theorem undoUpdates_unwinds {column : Nat} {pairs : List (Nat × Scalar)}
    (hc : s.database.catalog.Formed) (h : s.transaction.Formed s.database.catalog undo)
    (ht : s.database.catalog.tables[table]? = some t)
    (hpairs : ∀ p ∈ pairs, Placed undo table t column p) :
    Unwinds s (undoUpdates table column s pairs).2 undo ∧
      ∀ e, (undoUpdates table column s pairs).1 = .error e → e.isRefusal = false := by
  induction pairs generalizing s t with
  | nil => exact ⟨unwinds_refl hc h, fun _ he => nomatch he⟩
  | cons p rest ih =>
    have hp := hpairs p List.mem_cons_self
    -- One row is taken back or is why the others are not.
    obtain ⟨r, s₁, he, hu, hun⟩ : ∃ r s₁, (if isLocalRow p.1 then
          s.undoLocalUpdate table column (p.1 - firstLocalRow) p.2
        else
          s.onDatabase fun db => db.changeReading table fun source t =>
            t.revertUpdate source column p.1 s.transaction.snapshot p.2) = (r, s₁) ∧
        Unwinds s s₁ undo ∧ ∀ e, r = .error e → e.isRefusal = false := by
      cases hlocal : isLocalRow p.1 with
      | true =>
        obtain ⟨s₁, he, hu⟩ := undoLocalUpdate_unwinds hlocal hc h ht hp
        exact ⟨_, s₁, he, hu, fun _ he => nomatch he⟩
      | false =>
        rw [Placed, hlocal, if_neg Bool.false_ne_true] at hp
        obtain ⟨r, t', he, hk, hun⟩ := @Table.revertUpdate_runs s.database.disk s.database.decoded t
          (hc table t ht) column _ hp s.transaction.snapshot p.2
        obtain ⟨db, hchange, hdb⟩ := onDatabase_changeReading ht (f := fun source t =>
          t.revertUpdate source column p.1 s.transaction.snapshot p.2) he
        exact ⟨r, _, hchange, unwinds_setTable hc h ht hk (congrArg Database.catalog hdb)
          (by rw [hdb]), hun⟩
    rw [undoUpdates, he]
    cases r with
    | error e => exact ⟨hu, hun⟩
    | ok _ =>
      obtain ⟨t₁, ht₁, hk⟩ := hu.catalog.tables table t ht
      obtain ⟨hrest, hun'⟩ := ih (hu.catalog.formed hc) hu.formed ht₁ fun q hq =>
        (hpairs q (List.mem_cons_of_mem _ hq)).keeps hk
      exact ⟨hu.trans hrest, hun'⟩

/-- **The newest change is taken back,** or as much of it as can be. -/
theorem undo_unwinds {change : UndoRecord} (hc : s.database.catalog.Formed)
    (h : s.transaction.Formed s.database.catalog (undo ++ [change])) :
    Unwinds s (s.undo change).2 undo ∧
      ∀ e, (s.undo change).1 = .error e → e.isRefusal = false := by
  cases change with
  | insert table start n =>
    obtain ⟨s', he, hu⟩ := undoInsert_unwinds hc h
    rw [Session.undo, he]
    exact ⟨hu, by rintro _ ⟨⟩⟩
  | delete table rows => exact undoDelete_unwinds hc h
  | update table column rows before =>
    have hinit : s.transaction.Formed s.database.catalog undo := h.init fun _ => rfl
    obtain ⟨hlen, types, type, htypes, htype, hlocal⟩ := h.undoable.init.2
    obtain ⟨t, ht, rfl⟩ := table_of_types htypes
    obtain ⟨u, hu, -, -, hrows⟩ := h.within _ (List.mem_append_right _ (List.mem_singleton_self _))
    obtain rfl := Option.some.inj (ht.symm.trans hu)
    rw [Session.undo, if_neg (not_not.mpr hlen)]
    refine undoUpdates_unwinds hc hinit ht fun p hp => ?_
    have hp := List.mem_reverse.mp hp
    unfold Placed
    split
    · rename_i hl
      obtain ⟨hlt, hfit⟩ := hlocal p hp hl
      exact ⟨hlt, type, htype, hfit⟩
    · rename_i hl
      exact hrows _ (List.mem_filter.mpr ⟨(List.of_mem_zip hp).1, by simpa using hl⟩)

/-- **All changes are taken back** that can be, and none of them is refused. -/
theorem undoAll_unwinds (hc : s.database.catalog.Formed)
    (h : s.transaction.Formed s.database.catalog undo) :
    Unwinds s (Attempt.all Session.undo s undo.reverse).2 [] ∧
      ∀ e, (Attempt.all Session.undo s undo.reverse).1 = .error e → e.isRefusal = false := by
  induction undo using List.reverseRecOn generalizing s with
  | nil => exact ⟨unwinds_refl hc h, fun _ he => nomatch he⟩
  | append_singleton front change ih =>
    obtain ⟨hu, hun⟩ := undo_unwinds hc h
    obtain ⟨hu', hun'⟩ := ih (hu.catalog.formed hc) hu.formed
    rw [List.reverse_append, List.reverse_singleton, List.singleton_append, Attempt.all]
    refine ⟨hu.trans hu', fun e he => ?_⟩
    dsimp only at he
    split at he
    · exact hun e he
    · exact hun' e he

/-- What an operation leaves of a formed session: tables that may have grown. -/
structure Leaves (s s' : Session) : Prop where
  policy_eq : s'.database.policy = s.database.policy
  grows : s.database.catalog.Grows s'.database.catalog
  formed : s'.Formed

theorem leaves_refl (h : s.Formed) : Leaves s s := ⟨rfl, Catalog.Grows.refl _, h⟩

/-- What is left of a transaction that has ended is only in the tables. -/
theorem leaves_ended (h : s.Formed) (hp : s'.database.policy = s.database.policy)
    (hk : s.database.catalog.Keeps s'.database.catalog) (hended : s'.transaction.state ≠ .active) :
    Leaves s s' :=
  ⟨hp, hk.grows, hk.formed h.catalog, fun ha => absurd ha hended⟩

/-- **A transaction is rolled back** as far as its changes can be taken back, and that is never
refused. -/
theorem rollback_runs (h : s.Formed) :
    Leaves s s.rollback.2 ∧ ∀ e, s.rollback.1 = .error e → e.isRefusal = false := by
  by_cases hactive : s.transaction.state = .active
  · obtain ⟨hu, hun⟩ := undoAll_unwinds h.catalog (h.transaction hactive)
    rw [rollback, if_neg (by rw [hactive]; decide), Transaction.checkActive, if_pos hactive]
    exact ⟨leaves_ended h hu.policy_eq hu.catalog (by simp), hun⟩
  · rw [rollback]
    split
    · exact ⟨leaves_refl h, by rintro _ ⟨⟩⟩
    · rw [Transaction.checkActive, if_neg hactive]
      exact ⟨leaves_refl h, by rintro _ ⟨⟩; rfl⟩

end Session
end ColumnStore
