/-
# Refused writes

A write that is refused leaves the transaction active and everything as it was: its records, its
local rows with their marks of deletion, and all tables.  That holds for every formed session, whatever
can be read (`insert_runs`, `delete_runs`, `update_runs`).
-/

import ColumnStore.Proofs.Database.Formed

namespace ColumnStore

namespace Session

variable {s s' : Session} {table : TableId} {t : Table}

/-- The local rows of a transaction for a table, and whether they are deleted. -/
def ownRows (s : Session) (table : TableId) : List (Option Row × Bool) :=
  match s.locals? table with
  | none => []
  | some l => (List.range l.count).map fun i => (l.row? i, l.isDeleted i)

/-- What a write leaves that was refused: the transaction goes on, its records, its local rows and
all tables are as before.  What was read may be kept. -/
structure Spared (s s' : Session) : Prop where
  active : s'.transaction.state = .active
  transaction_eq : s'.transaction = { s.transaction with locals := s'.transaction.locals }
  database_eq : s'.database = { s.database with decoded := s'.database.decoded }
  ownRows_eq : ∀ table, s'.ownRows table = s.ownRows table

theorem spared_refl (h : s.transaction.state = .active) : Spared s s :=
  ⟨h, rfl, rfl, fun _ => rfl⟩

/-- What a write does to what it finds. -/
structure Runs {α : Type} (s : Session) (y : Attempt TransactionError Session α) : Prop where
  leaves : Leaves s y.2
  spared : ∀ e, y.1 = .error e → e.isRefusal = true → Spared s y.2

/-- What is not refused is not spared either. -/
theorem runs_unrefused {α : Type} {y : Attempt TransactionError Session α} (h : Leaves s y.2)
    (hun : ∀ e, y.1 = .error e → e.isRefusal = false) : Runs s y :=
  ⟨h, fun e he hr => absurd (hun e he) (by rw [hr]; decide)⟩

theorem runs_ok {α : Type} {a : α} (h : Leaves s s') : Runs s (.ok a, s') :=
  runs_unrefused h fun _ he => nomatch he

theorem runs_refl {α : Type} (h : s.Formed) (hactive : s.transaction.state = .active)
    (r : Except TransactionError α) : Runs s (r, s) :=
  ⟨leaves_refl h, fun _ _ _ => spared_refl hactive⟩

/-- **Only a transaction that may write is refused anything.**  One that has ended says so, and one
that was cancelled is rolled back. -/
theorem whileActive_cases {α : Type} (h : s.Formed)
    (write : Session → Attempt TransactionError Session α) :
    (s.transaction.Writing ∧ s.whileActive write = write s) ∨
      ∃ e s', s.whileActive write = (.error e, s') ∧ e.isRefusal = false ∧ Leaves s s' := by
  by_cases hactive : s.transaction.state = .active
  swap
  · rw [whileActive, Transaction.checkActive, if_neg hactive]
    exact .inr ⟨_, s, rfl, rfl, leaves_refl h⟩
  cases hc : s.transaction.cancel.raised with
  | false => exact .inl ⟨⟨hactive, hc⟩, whileActive_writing ⟨hactive, hc⟩ write⟩
  | true =>
    obtain ⟨hleaves, hun⟩ := rollback_runs h
    rw [whileActive, Transaction.checkActive, if_pos hactive]
    dsimp only
    rw [if_pos hc, stop]
    generalize s.rollback = y at hleaves hun
    obtain ⟨r, s₁⟩ := y
    cases r with
    | error e => exact .inr ⟨e, s₁, rfl, hun e rfl, hleaves⟩
    | ok _ => exact .inr ⟨_, s₁, rfl, rfl, hleaves⟩

/-- What is done only while a transaction may write. -/
theorem leaves_whileActive {α : Type} (h : s.Formed)
    {write : Session → Attempt TransactionError Session α}
    (hwrite : s.transaction.Writing → s.whileActive write = write s → Leaves s (write s).2) :
    Leaves s (s.whileActive write).2 := by
  rcases whileActive_cases h write with ⟨hw, he⟩ | ⟨e, s', he, -, hleaves⟩
  · rw [he]
    exact hwrite hw he
  · rw [he]
    exact hleaves

theorem runs_whileActive {α : Type} (h : s.Formed)
    {write : Session → Attempt TransactionError Session α}
    (hwrite : s.transaction.Writing → Runs s (write s)) : Runs s (s.whileActive write) := by
  rcases whileActive_cases h write with ⟨hw, he⟩ | ⟨e, s', he, hun, hleaves⟩
  · rw [he]
    exact hwrite hw
  · rw [he]
    exact runs_unrefused hleaves (by rintro _ ⟨⟩; exact hun)

/-! ## Inserting -/

theorem ownRows_setLocal (s : Session) (table : TableId) (l : LocalRows) (j : TableId) :
    (s.setLocal table l).ownRows j =
      if j = table then (List.range l.count).map fun i => (l.row? i, l.isDeleted i)
      else s.ownRows j := by
  rw [ownRows, locals?_setLocal]
  by_cases hj : j = table
  · rw [if_pos hj, if_pos hj]
  · rw [if_neg hj, if_neg hj]
    rfl

/-- Local rows that were kept are those that were there. -/
theorem spared_setLocal (hactive : s.transaction.state = .active) {l : LocalRows}
    (hk : LocalRows.Keeps ((s.locals? table).getD (.new t.types)) l t.types)
    (hold : ((s.locals? table).getD (.new t.types)).Sound t.types)
    (hcount : l.count = ((s.locals? table).getD (.new t.types)).count) :
    Spared s (s.setLocal table l) := by
  refine ⟨hactive, rfl, rfl, fun j => ?_⟩
  rw [ownRows_setLocal]
  split
  · rename_i hj
    subst hj
    have hrows : ∀ i ∈ List.range ((s.locals? j).getD (.new t.types)).count,
        (l.row? i, l.isDeleted i) = (((s.locals? j).getD (.new t.types)).row? i,
          ((s.locals? j).getD (.new t.types)).isDeleted i) := fun i hi => by
      rw [LocalRows.row?_congr
        (hk.sound.columns.length_eq.trans hold.columns.length_eq.symm) fun k =>
          hk.get?_eq k i (List.mem_range.mp hi), LocalRows.isDeleted, hk.deleted_eq]
      rfl
    rw [hcount, List.map_congr_left hrows, ownRows]
    cases s.locals? j <;> rfl
  · rfl

/-- **An insertion** is refused before any row is there. -/
theorem insert_runs (h : s.Formed) (ht : s.database.catalog.tables[table]? = some t) (c : Chunk) :
    Runs s (s.insert table c) := by
  refine runs_whileActive h fun hw => ?_
  have htable : s.table table = t := Catalog.table_of_some ht
  have hx := h.transaction hw.active
  dsimp only
  by_cases hempty : c.isEmpty = true
  · rw [if_pos hempty]
    exact runs_refl h hw.active _
  rw [if_neg hempty, htable]
  obtain ⟨hold, hcount⟩ := hx.getD_locals h.catalog ht
  have hpos : 0 < c.cardinality := Nat.pos_of_ne_zero (by simpa [Chunk.isEmpty] using hempty)
  rcases LocalRows.append_cases hold c with ⟨e, l', he, hk, hc⟩ | ⟨l', he, hk, hc, -⟩
  · rw [locals?, he]
    exact ⟨⟨rfl, Catalog.Grows.refl _, h.catalog, fun _ =>
      hx.setLocal ht hk.sound (hc.trans hcount)⟩, fun _ _ _ => spared_setLocal hw.active hk hold hc⟩
  · rw [locals?, he]
    dsimp only
    rw [Nat.add_sub_cancel_left]
    refine runs_ok ⟨rfl, Catalog.Grows.refl _, h.catalog, fun _ => ?_⟩
    exact (hx.insert ht hk.sound hcount hpos hc).of_locals rfl

/-! ## Deleting -/

/-- A transaction that has recorded a change, unless nothing was changed. -/
theorem formed_unless {x : Transaction} {c : Catalog} {undo : List UndoRecord} (h : x.Formed c undo)
    {b : Bool} {change : UndoRecord} (ha : ∀ j, change.added j = 0)
    (hc : b = false → change.UndoableAfter c.types? undo ∧ change.Within c) {x' : Transaction}
    (hl : x'.locals = x.locals) : x'.Formed c (undo ++ if b then [] else [change]) := by
  cases b with
  | true => exact (List.append_nil undo).symm ▸ h.of_locals hl
  | false => exact (h.snoc ha (hc rfl).1 (hc rfl).2).of_locals hl

/-- **A deletion** is refused before any row is marked. -/
theorem delete_runs (h : s.Formed) (ht : s.database.catalog.tables[table]? = some t)
    (rows : List Nat) : Runs s (s.delete table rows) := by
  refine runs_whileActive h fun hw => ?_
  have hx := h.transaction hw.active
  have hts := h.catalog table t ht
  dsimp only
  cases hcheck : s.checkLocalRows table (rows.filter isLocalRow) with
  | error e => exact runs_refl h hw.active _
  | ok _ =>
    dsimp only
    rw [onDatabase, Database.change_eq ht]
    cases hdel : t.delete (committedRows rows) s.transaction.snapshot with
    | error e =>
      simp only [Attempt.ofExcept, Catalog.setTable_self ht, Attempt.andThen_error]
      exact runs_refl h hw.active _
    | ok found =>
      obtain ⟨marked, t'⟩ := found
      obtain ⟨-, hwritable, -, hr⟩ := Table.delete_ok hts hdel
      have hk := h.catalog.keeps_setTable ht hr.keeps
      have ht' : (s.database.catalog.setTable table t').tables[table]? = some t' := by
        rw [Catalog.tables_setTable ht, if_pos rfl]
      simp only [Attempt.ofExcept, Attempt.andThen_ok]
      obtain ⟨fresh, locals, he, hsub, hsame, hkeys, -⟩ := deleteOwn_ok
        ⟨{ s.database with catalog := s.database.catalog.setTable table t' }, s.transaction⟩ table
        (rows.filter isLocalRow)
      rw [he]
      dsimp only
      rw [record_unless]
      have hlocals : ({ s.transaction with locals } : Transaction).Formed s.database.catalog
          s.transaction.undo :=
        ⟨hx.undoable, hsame.agree hx.locals (hkeys hx.locals.nodup) fun _ => rfl, hx.within⟩
      have hwithin : (UndoRecord.delete table (marked ++ fresh)).Within
          (s.database.catalog.setTable table t') := by
        refine ⟨t', ht', fun r hm => ?_⟩
        rw [committedRows_append,
          committedRows_local fun q hq => (List.mem_filter.mp (hsub q hq)).2, List.append_nil] at hm
        rw [hr.keeps.rows_eq]
        exact (hwritable r (List.mem_filter.mp hm).1).2.lt
      refine runs_ok ⟨rfl, hk.grows, hk.formed h.catalog, fun _ => formed_unless
        (hlocals.grows hk.grows) (fun _ => rfl) (fun _ => ⟨?_, hwithin⟩) rfl⟩
      rw [UndoRecord.UndoableAfter, Catalog.types?, ht']
      rfl

/-! ## Updating -/

/-- **Local rows are written over.** -/
theorem updateOwn_runs {c : Catalog} {undo : List UndoRecord} (hx : s.transaction.Formed c undo)
    (ht : c.tables[table]? = some t) {column : Nat} {type : ColumnType}
    (htype : t.types[column]? = some type) {pairs : List (Nat × Scalar)}
    (hpairs : ∀ p ∈ pairs, isLocalRow p.1 = true ∧ p.2.fits type = true ∧
      ∃ l, s.locals? table = some l ∧ p.1 - firstLocalRow < l.count) (db : Database) :
    ∃ more locals, updateOwn ⟨db, s.transaction⟩ table column pairs =
        (.ok more, ⟨db, { s.transaction with locals }⟩) ∧
      (∀ p ∈ more, isLocalRow p.1 = true ∧ p.1 - firstLocalRow < localCount table undo ∧
        p.2.fits type = true) ∧
      ({ s.transaction with locals } : Transaction).Formed c undo := by
  unfold updateOwn locals? at *
  cases hl : s.transaction.locals.get? table with
  | none => exact ⟨[], s.transaction.locals, rfl, by simp, hx⟩
  | some l =>
    obtain ⟨hs, hcount⟩ := hx.local_ok ht hl
    obtain ⟨more, l', he, hs', hcount', -, hmore, -⟩ := updateLocals_ok htype hs pairs fun p hp => by
      obtain ⟨hlocal, hfit, l₀, hl₀, hlt⟩ := hpairs p hp
      obtain rfl := Option.some.inj (hl.symm.trans hl₀)
      exact ⟨hlocal, hlt, hfit⟩
    dsimp only
    rw [he]
    exact ⟨more, s.transaction.locals.set table l', rfl, fun p hp => hcount ▸ hmore p hp,
      hx.setLocal ht hs' (hcount'.trans hcount)⟩

/-- The record of an update can be found again: the rows of the table come first in it, and then the
local ones. -/
theorem findable_update {c : Catalog} {undo : List UndoRecord} (ht : c.tables[table]? = some t)
    (hts : t.Sound) {column : Nat} {type : ColumnType} (htype : t.types[column]? = some type)
    {done more : List (Nat × Scalar)} {before : List Scalar} (hlen : before.length = done.length)
    (hdone : ∀ p ∈ done, isLocalRow p.1 = false ∧ p.1 < t.rows)
    (hmore : ∀ p ∈ more, isLocalRow p.1 = true ∧ p.1 - firstLocalRow < localCount table undo ∧
      p.2.fits type = true) :
    let change := UndoRecord.update table column (done.map (·.1) ++ more.map (·.1))
      (before ++ more.map (·.2))
    change.UndoableAfter c.types? undo ∧ change.Within c := by
  have hlength : (done.map (·.1) ++ more.map (·.1)).length =
      (before ++ more.map (·.2)).length := by simp [hlen]
  have htypes : c.types? table = some t.types := by
    rw [Catalog.types?, ht]
    rfl
  have hlocal : committedRows (more.map (·.1)) = [] := committedRows_local fun q hq => by
    obtain ⟨p, hp, rfl⟩ := List.mem_map.mp hq
    exact (hmore p hp).1
  refine ⟨⟨hlength, t.types, type, htypes, htype, fun p hp hlr => ?_⟩, t, ht, ?_, hlength,
    fun row hrow => ?_⟩
  · rw [List.zip_append (by simp [hlen]), zip_fst_snd] at hp
    rcases List.mem_append.mp hp with hp | hp
    · obtain ⟨q, hq, hpq⟩ := List.mem_map.mp (List.of_mem_zip hp).1
      rw [← hpq, (hdone q hq).1] at hlr
      cases hlr
    · exact (hmore p hp).2
  · have := (List.getElem?_eq_some_iff.mp htype).1
    rw [Table.length_columns hts]
    rwa [Table.types, List.length_map] at this
  · rw [committedRows_append, hlocal, List.append_nil] at hrow
    obtain ⟨q, hq, rfl⟩ := List.mem_map.mp (List.mem_filter.mp hrow).1
    exact (hdone q hq).2

/-- **An update** is refused before any row is written over; what it may find while it writes is
damage. -/
theorem update_runs (h : s.Formed) (ht : s.database.catalog.tables[table]? = some t) (column : Nat)
    (rows : List Nat) {values : ValueVector} (hvalues : values.Typed) :
    Runs s (s.update table column rows values) := by
  by_cases hw : s.transaction.Writing
  swap
  · exact runs_whileActive h fun hw' => absurd hw' hw
  have hx := h.transaction hw.active
  rcases update_checked hw ht column rows hvalues with ⟨e, he⟩ | ⟨xs, -, htype, hfit, hown, he⟩
  · rw [he]
    exact runs_refl h hw.active _
  rw [he, overwrite]
  obtain ⟨r, t', hupdate, hr⟩ := @Table.update_runs s.database.disk s.database.decoded t
    (h.catalog table t ht) column (((rows.zip xs).filter (!isLocalRow ·.1)).map (·.1))
    (((rows.zip xs).filter (!isLocalRow ·.1)).map (·.2)) s.transaction.snapshot
  obtain ⟨db, hchange, hdb⟩ := onDatabase_changeReading ht
    (f := fun source t => t.update source column _ _ s.transaction.snapshot) hupdate
  have hcat : db.catalog = s.database.catalog.setTable table t' := congrArg Database.catalog hdb
  have hp : db.policy = s.database.policy := by rw [hdb]
  dsimp only
  rw [hchange]
  rcases hr with ⟨e, rfl, rfl⟩ | ⟨c, targets, done, -, htargets, hwrites, hend⟩
  · rw [Catalog.setTable_self ht] at hdb hcat
    rw [Attempt.andThen_error]
    have hkeeps : s.database.catalog.Keeps db.catalog := hcat.symm ▸ h.catalog.keeps_refl
    exact ⟨⟨hp, hkeeps.grows, hkeeps.formed h.catalog, fun _ => hx.grows hkeeps.grows⟩,
      fun _ _ _ => ⟨hw.active, rfl, hdb, fun _ => rfl⟩⟩
  have hk := h.catalog.keeps_setTable ht hwrites.keeps
  rw [← hcat] at hk
  rcases hend with ⟨before, rfl, rfl, hlen'⟩ | ⟨e, rfl, hstop⟩
  swap
  · rw [Attempt.andThen_error]
    exact runs_unrefused ⟨hp, hk.grows, hk.formed h.catalog, fun _ => hx.grows hk.grows⟩
      (by rintro _ ⟨⟩; exact hstop.unrefused)
  have ht' : db.catalog.tables[table]? = some t' := by
    rw [hcat, Catalog.tables_setTable ht, if_pos rfl]
  have htype' : t'.types[column]? = some values.type := hwrites.keeps.types_eq ▸ htype
  obtain ⟨more, locals, hmoreeq, hmore, hformed⟩ := updateOwn_runs (hx.grows hk.grows) ht' htype'
    (fun p hp => by
      obtain ⟨hp, hlr⟩ := List.mem_filter.mp hp
      exact ⟨hlr, hfit p hp, hown p hp hlr⟩) db
  rw [Attempt.andThen_ok, hmoreeq, Attempt.andThen_ok]
  dsimp only
  rw [record_unless]
  refine runs_ok ⟨hp, hk.grows, hk.formed h.catalog, fun _ => formed_unless hformed (fun _ => rfl)
    (fun _ => findable_update ht' (hk.formed h.catalog table t' ht') htype' hlen' (fun q hq => ?_)
      hmore) rfl⟩
  obtain ⟨p, hm, hpq⟩ := List.mem_map.mp (htargets q hq).1
  rw [hwrites.keeps.rows_eq, ← hpq]
  exact ⟨by simpa using (List.mem_filter.mp hm).2, hpq ▸ (htargets q hq).2.1.lt⟩

end Session
end ColumnStore
