/-
# The group of a commit in a mirror

Replaying the group of a commit does to the mirror of every table what the commit does to the table:
the changes of committed rows first, and then the rows of the transaction (`Catalog.Mirrors.commit`).
-/

import ColumnStore.Proofs.Database.Mirrors
import ColumnStore.Proofs.Log.Playing

namespace ColumnStore

theorem valuesFor_zip_map (row : Nat) (rows : List Nat) (f : Nat → Scalar) :
    valuesFor row (rows.zip (rows.map f)) = List.replicate (rows.count row) (f row) := by
  induction rows with
  | nil => rfl
  | cons r rest ih =>
    rw [List.map_cons, List.zip_cons_cons, valuesFor_cons, ih, List.count_cons]
    by_cases h : r = row
    · rw [if_pos h, if_pos (beq_iff_eq.mpr h), h, List.replicate_succ]
    · rw [if_neg h, if_neg (by simpa using h), Nat.add_zero]

namespace Table

/-- A change that is not of a table does nothing to its mirror. -/
theorem Rewrites.of_unnamed {time : Stamp} {value : Nat → Nat → Scalar} {change : UndoRecord}
    {table : TableId} {u : Table} (h : u.Sound) (hd : change.deletedRows table = [])
    (hi : ∀ i, change.imagePairs table i = []) : Rewrites time value [change] table u u where
  keeps := Keeps.refl h
  stamps_eq r := by simp [hd]
  chain_eq i r := ⟨0, by simp, by simp [updatedRows, hi]⟩

end Table

namespace Session

variable {s : Session} {others : List Transaction} {table : TableId} {t u : Table}

/-- What a transaction sees in a row that it has written to is the last that it has written. -/
theorem valueOf_fits (h : s.database.Sound (s.transaction :: others))
    (ht : s.database.catalog.tables[table]? = some t) {column row : Nat}
    (hcolumn : column < t.columns.length) (hi : s.transaction.images table column row ≠ [])
    {type : ColumnType} (htype : t.types[column]? = some type) :
    (s.valueOf table column row).fits type = true := by
  have hown := h.owned table t ht
  obtain ⟨settled, values, hheld⟩ := (hown.cells column row).held h.others_ne hi
  obtain ⟨below, hb, -⟩ := hheld.images_eq
  have hvalue := value_eq_valueOf h ht hcolumn (lt_of_images h ht hcolumn hi)
  have hread := readOver_append_own settled below values hb
  rw [show s.transaction.snapshot.transaction = s.transaction.id from rfl, ← hheld.chain_eq] at hread
  obtain heq := Except.ok.inj (hvalue.symm.trans hread)
  refine hown.fits column type htype row ⟨s.transaction.id, s.valueOf table column row⟩ ?_
  rw [hheld.chain_eq, heq, List.getLast_cons hheld.nonempty]
  exact List.mem_append_right _ (List.mem_map_of_mem (List.getLast_mem hheld.nonempty))

/-- A column that a transaction has written to is there. -/
theorem column_lt_of_images (h : s.database.Sound (s.transaction :: others))
    (ht : s.database.catalog.tables[table]? = some t) {column row : Nat}
    (hi : s.transaction.images table column row ≠ []) : column < t.columns.length := by
  obtain ⟨settled, values, hheld⟩ := ((h.owned table t ht).cells column row).held h.others_ne hi
  by_contra hle
  have hchain := hheld.chain_eq
  rw [Table.chain_of_none (List.getElem?_eq_none (Nat.le_of_not_lt hle))] at hchain
  exact hheld.nonempty (List.map_eq_nil_iff.mp (List.append_eq_nil_iff.mp hchain.symm).2)

/-- **The entries for a change** can be replayed in a mirror of its table. -/
theorem plays_change (h : s.database.Sound (s.transaction :: others)) {change : UndoRecord}
    (hm : change ∈ s.transaction.undo) (ht : s.database.catalog.tables[table]? = some t)
    (hu : u.Sound) (hd : u.definitions = t.definitions) (hrows : u.rows = t.rows) (time : Stamp) :
    ∃ u', Table.Plays time (if change.table = table then s.changeOf change else []) u u' ∧
      Table.Rewrites time (s.valueOf table) [change] table u u' := by
  by_cases htable : change.table = table
  swap
  · refine ⟨u, by rw [if_neg htable]; exact .nil u, .of_unnamed hu ?_ fun i => ?_⟩
    · cases change <;> first | rfl | exact if_neg htable
    · cases change <;> first | rfl | exact if_neg fun hh => htable hh.1
  rw [if_pos htable]
  cases change with
  | insert => exact ⟨u, .nil u, .of_unnamed hu rfl fun _ => rfl⟩
  | delete table' rows =>
    obtain rfl : table' = table := htable
    rw [changeOf]
    by_cases hempty : (committedRows rows).isEmpty = true
    · refine ⟨u, by rw [if_pos hempty]; exact .nil u, .of_unnamed hu ?_ fun _ => rfl⟩
      rw [UndoRecord.deletedRows, if_pos rfl, List.isEmpty_iff.mp hempty]
    · obtain ⟨t', ht', hin⟩ := of_delete_mem h hm
      obtain rfl := Option.some.inj (ht.symm.trans ht')
      obtain ⟨u', he, hr⟩ := Table.deleteCommitted_ok hu
        (fun r hr => hrows ▸ (hin r hr).2) time
      refine ⟨u', by rw [if_neg hempty]; exact .single he, hr.keeps, fun r => ?_, fun i r => ?_⟩
      · rw [hr.stamps_eq r]
        simp [UndoRecord.deletedRows]
      · exact ⟨0, by simp [hr.chain_eq], by simp [updatedRows]⟩
  | update table' column rows before =>
    obtain rfl : table' = table := htable
    obtain ⟨t', ht', hcolumn, hlen, hin⟩ := of_update_mem h hm
    obtain rfl := Option.some.inj (ht.symm.trans ht')
    have hfst : updatedRows table' column [.update table' column rows before] =
        committedRows rows := by
      rw [updatedRows, List.flatMap_singleton, UndoRecord.imagePairs, if_pos ⟨rfl, rfl⟩,
        map_fst_filter_zip hlen]
    rw [changeOf]
    by_cases hempty : (committedRows rows).isEmpty = true
    · refine ⟨u, by rw [if_pos hempty]; exact .nil u, Table.Keeps.refl hu, fun r => by simp,
        fun i r => ⟨0, by simp, ?_⟩⟩
      by_cases hi : i = column
      · rw [hi, hfst, List.isEmpty_iff.mp hempty]
        simp
      · simp [updatedRows, UndoRecord.imagePairs, Ne.symm hi]
    · have hcolumn' : column < u.columns.length := by
        rw [Table.length_columns hu, hd, ← Table.length_columns (h.catalog.tables table' t ht).1]
        exact hcolumn
      have hc := List.getElem?_eq_getElem hcolumn'
      obtain ⟨d, -, htype, -⟩ := Table.holds_of_some hu hc
      have htypes : u.types = t.types := by rw [Table.types, Table.types, hd]
      obtain ⟨u', he, hw⟩ := Table.updateCommitted_ok hu hc
        ((committedRows rows).map (s.valueOf table' column)) (by simp)
        (fun r hr => hrows ▸ (hin r hr).2) (fun x hx => by
          obtain ⟨r, hr, rfl⟩ := List.mem_map.mp hx
          exact valueOf_fits h ht hcolumn (hin r hr).1 (htypes ▸ htype)) time
      refine ⟨u', by rw [if_neg hempty]; exact .single he, hw.keeps, fun r => ?_, fun i r => ?_⟩
      · rw [hw.stamps_eq r]
        simp
      · rw [hw.chain_eq i r]
        by_cases hi : i = column
        · subst hi
          refine ⟨(committedRows rows).count r, ?_, ?_⟩
          · rw [if_pos rfl, valuesFor_zip_map, versionsOf, List.map_replicate]
          · rw [hfst, List.count_eq_zero]
        · exact ⟨0, by simp [hi], by simp [updatedRows, UndoRecord.imagePairs, Ne.symm hi]⟩

/-- **The entries for all changes of a table.** -/
theorem plays_changes (h : s.database.Sound (s.transaction :: others))
    {changes : List UndoRecord} (hm : ∀ change ∈ changes, change ∈ s.transaction.undo)
    (ht : s.database.catalog.tables[table]? = some t) (hu : u.Sound)
    (hd : u.definitions = t.definitions) (hrows : u.rows = t.rows) (time : Stamp) :
    ∃ u', Table.Plays time
        (changes.flatMap fun change => if change.table = table then s.changeOf change else []) u u' ∧
      Table.Rewrites time (s.valueOf table) changes table u u' := by
  induction changes generalizing u with
  | nil => exact ⟨u, .nil u, .refl hu time _ table⟩
  | cons change rest ih =>
    obtain ⟨u₁, hplay, hr⟩ := plays_change h (hm change List.mem_cons_self) ht hu hd hrows time
    obtain ⟨u', hplay', hr'⟩ := ih (fun c hc => hm c (List.mem_cons_of_mem _ hc))
      (hr.keeps.sound hu) (hr.keeps.definitions_eq.trans hd) (hr.keeps.rows_eq.trans hrows)
    exact ⟨u', hplay.append hplay', hr.cons hr'⟩

/-- The entry for the rows that a transaction has inserted into a table. -/
def insertion (s : Session) (table : TableId) : List LogEntry :=
  if s.transaction.rowsOf table = [] then []
  else [.insert (s.table table).name (s.transaction.rowsOf table)]

theorem target_changeOf {change : UndoRecord} {e : LogEntry} (h : e ∈ s.changeOf change) :
    e.target? = some (s.table change.table).name := by
  cases change with
  | insert => cases h
  | delete table rows =>
    rw [changeOf] at h
    split at h
    · cases h
    · obtain rfl := List.mem_singleton.mp h
      rfl
  | update table column rows before =>
    rw [changeOf] at h
    split at h
    · cases h
    · obtain rfl := List.mem_singleton.mp h
      rfl

theorem insertEntry?_eq (table : TableId) (l : LocalRows) : s.insertEntry? (table, l) =
    if l.liveRows = [] then none else some (.insert (s.table table).name l.liveRows) := by
  unfold insertEntry?
  by_cases h : l.liveRows = []
  · rw [if_pos h]
    exact if_pos (List.isEmpty_iff.mpr h)
  · rw [if_neg h]
    exact if_neg (mt List.isEmpty_iff.mp h)

theorem localCount_eq_zero {undo : List UndoRecord}
    (h : ∀ change ∈ undo, change.table ≠ table) : localCount table undo = 0 := by
  induction undo with
  | nil => rfl
  | cons change rest ih =>
    have hc := h change List.mem_cons_self
    rw [localCount, ih fun c hm => h c (List.mem_cons_of_mem _ hm)]
    cases change <;> first | rfl | exact if_neg hc

/-- A transaction that has inserted rows into a table has recorded that. -/
theorem exists_insert (h : s.database.Sound (s.transaction :: others)) (table : TableId)
    (hr : s.transaction.rowsOf table ≠ []) :
    ∃ change ∈ s.transaction.undo, change.table = table := by
  have hrows := (h.recorded _ List.mem_cons_self).locals.rows table
  rw [Transaction.rowsOf] at hr
  cases hl : s.transaction.locals.get? table with
  | none =>
    rw [hl] at hr
    exact absurd rfl hr
  | some l =>
    rw [hl] at hr hrows
    obtain ⟨-, hcount⟩ := hrows
    by_contra hno
    have hzero : l.count = 0 := hcount.trans (localCount_eq_zero fun change hm heq =>
      hno ⟨change, hm, heq⟩)
    refine hr ?_
    simp only [LocalRows.liveRows, LocalRows.live, hzero]
    rfl

end Session

/-! ## Catalogs -/

/-- A catalog with a mirror for every table of another one that is not dropped. -/
structure Catalog.Mirrors (last : Stamp) (c m : Catalog) : Prop where
  sound : m.Sound
  names_eq : m.names.map (·.1) = c.names.map (·.1)
  tables : ∀ (id : Nat) (t : Table), c.tables[id]? = some t → t.dropped = false →
    ∃ j u, m.find? t.name = some j ∧ m.tables[j]? = some u ∧ Table.Mirrors last t u

namespace Catalog

theorem get_eq_ok {c : Catalog} {name : String} {id : TableId} :
    c.get name = .ok id ↔ c.find? name = some id := by
  rw [get]
  cases c.find? name <;> simp

/-- A name leads to the table that has it. -/
theorem Sound.name_of_find {c : Catalog} (h : c.Sound) {name : String} {id : TableId} {t : Table}
    (hf : c.find? name = some id) (ht : c.tables[id]? = some t) :
    t.name = name ∧ t.dropped = false := by
  obtain ⟨u, hu, hname, hd⟩ := h.named name id (mem_of_get (get_eq_ok.mpr hf))
  obtain rfl := Option.some.inj (ht.symm.trans hu)
  exact ⟨hname, hd⟩

/-- **A table mirrors only one.** -/
theorem Mirrors.unique {last : Stamp} {c m : Catalog} (h : Mirrors last c m) (hc : c.Sound)
    {id id' : TableId} {t t' : Table} {j : TableId} (ht : c.tables[id]? = some t)
    (hd : t.dropped = false) (ht' : c.tables[id']? = some t') (hd' : t'.dropped = false)
    (hj : m.find? t.name = some j) (hj' : m.find? t'.name = some j) : id' = id := by
  obtain ⟨i, u, hi, hu, -⟩ := h.tables id t ht hd
  obtain rfl := Option.some.inj (hj.symm.trans hi)
  have hname := (h.sound.name_of_find hj hu).1
  have hname' := (h.sound.name_of_find hj' hu).1
  have hfind := hc.find ht hd
  rw [← hname, hname'] at hfind
  exact Except.ok.inj ((hc.find ht' hd').symm.trans hfind)

end Catalog

namespace Session

variable {s : Session} {others : List Transaction} {m : Catalog} {table j : TableId} {t u : Table}

/-- The entries of a commit. -/
def entries (s : Session) : List LogEntry :=
  s.transaction.undo.flatMap s.changeOf ++ s.transaction.locals.filterMap s.insertEntry?

/-- The entries that are about a table. -/
def entriesFor (s : Session) (table : TableId) : List LogEntry :=
  (s.transaction.undo.flatMap fun change =>
    if change.table = table then s.changeOf change else []) ++ s.insertion table

theorem insertion_eq : s.insertion table =
    ((s.transaction.locals.get? table).bind fun l => s.insertEntry? (table, l)).toList := by
  rw [insertion, Transaction.rowsOf]
  cases s.transaction.locals.get? table with
  | none => rfl
  | some l =>
    rw [Option.bind_some, insertEntry?_eq]
    dsimp only
    split <;> rfl

/-- What a transaction has changed that may commit is there. -/
theorem table_of_change (h : s.database.Sound (s.transaction :: others))
    (hp : ∀ change ∈ s.transaction.undo, (s.table change.table).dropped = false)
    {change : UndoRecord} (hm : change ∈ s.transaction.undo) :
    ∃ t, s.database.catalog.tables[change.table]? = some t ∧ t.dropped = false ∧
      s.table change.table = t := by
  obtain ⟨front, hundo⟩ := (h.recorded _ List.mem_cons_self).undoable.mem hm
  obtain ⟨t, ht⟩ : ∃ t, s.database.catalog.tables[change.table]? = some t := by
    refine table_of_isSome (c := s.database.catalog) ?_
    cases change with
    | insert => exact hundo.1
    | delete => exact hundo
    | update =>
      obtain ⟨-, types, -, htypes, -⟩ := hundo
      rw [UndoRecord.table, htypes]
      rfl
  have htable : s.table change.table = t := Catalog.table_of_some ht
  exact ⟨t, ht, htable ▸ hp change hm, htable⟩

/-- Every entry of a commit is about a table that was changed. -/
theorem target_entries (h : s.database.Sound (s.transaction :: others)) {e : LogEntry}
    (he : e ∈ s.entries) :
    ∃ change ∈ s.transaction.undo, e.target? = some (s.table change.table).name := by
  rcases List.mem_append.mp he with he | he
  · obtain ⟨change, hm, hin⟩ := List.mem_flatMap.mp he
    exact ⟨change, hm, target_changeOf hin⟩
  · obtain ⟨⟨id, l⟩, hm, heq⟩ := List.mem_filterMap.mp he
    have hl := LocalTables.get?_of_mem (h.recorded _ List.mem_cons_self).locals.nodup hm
    rw [insertEntry?_eq] at heq
    split at heq
    · cases heq
    · rename_i hlive
      obtain rfl := Option.some.inj heq
      obtain ⟨change, hm', rfl⟩ := exists_insert h id (by
        rw [Transaction.rowsOf, hl]
        exact hlive)
      exact ⟨change, hm', rfl⟩

section

variable {last : Stamp} (h : s.database.Sound (s.transaction :: others))
  (hp : ∀ change ∈ s.transaction.undo, (s.table change.table).dropped = false)
  (hmir : Catalog.Mirrors last s.database.catalog m)
include h hp hmir

/-- The entries for a change are about the mirror of its table. -/
theorem aim_change {change : UndoRecord} (hm : change ∈ s.transaction.undo) (table j : TableId)
    (t : Table) :
    ∃ i, m.find? (s.table change.table).name = some i ∧ i < m.tables.size ∧
      (s.database.catalog.tables[table]? = some t → t.dropped = false → m.find? t.name = some j →
        (i = j ↔ change.table = table)) := by
  obtain ⟨t', ht', hd', htable⟩ := table_of_change h hp hm
  obtain ⟨i, u, hi, hu, -⟩ := hmir.tables _ t' ht' hd'
  refine ⟨i, htable ▸ hi, Catalog.lt_of_some hu, fun ht hd hj => ⟨?_, ?_⟩⟩
  · rintro rfl
    exact hmir.unique h.catalog ht hd ht' hd' hj hi
  · rintro rfl
    obtain rfl := Option.some.inj (ht.symm.trans ht')
    exact Option.some.inj (hi.symm.trans hj)

theorem entriesOf_insertions (ht : s.database.catalog.tables[table]? = some t)
    (hd : t.dropped = false) (hj : m.find? t.name = some j) {ls : LocalTables}
    (hin : ∀ p ∈ ls, p ∈ s.transaction.locals) (hnodup : (ls.map (·.1)).Nodup) :
    m.entriesOf j (ls.filterMap s.insertEntry?) =
      ((ls.get? table).bind fun l => s.insertEntry? (table, l)).toList := by
  induction ls with
  | nil => rfl
  | cons p rest ih =>
    obtain ⟨id, l⟩ := p
    obtain ⟨hnot, hrest⟩ := List.nodup_cons.mp hnodup
    have hmore := ih (fun q hq => hin q (List.mem_cons_of_mem _ hq)) hrest
    rw [LocalTables.get?_cons]
    cases he : s.insertEntry? (id, l) with
    | none =>
      rw [List.filterMap_cons_none he, hmore]
      split
      · rename_i heq
        rw [heq, LocalTables.get?_eq_none hnot, Option.bind_some, he]
        rfl
      · rfl
    | some e =>
      have hentry : e ∈ s.entries := List.mem_append_right _
        (List.mem_filterMap.mpr ⟨_, hin _ List.mem_cons_self, he⟩)
      obtain ⟨change, hm, rfl⟩ : ∃ change ∈ s.transaction.undo, change.table = id := by
        have hl := LocalTables.get?_of_mem (h.recorded _ List.mem_cons_self).locals.nodup
          (hin _ List.mem_cons_self)
        refine exists_insert h _ fun hnil => ?_
        rw [Transaction.rowsOf, hl] at hnil
        rw [insertEntry?_eq, if_pos hnil] at he
        cases he
      obtain ⟨i, hi, -, hiff⟩ := aim_change h hp hmir hm table j t
      have haim : m.aim? e = some i := by
        rw [insertEntry?_eq] at he
        split at he
        · cases he
        · obtain rfl := Option.some.inj he
          exact hi
      rw [List.filterMap_cons_some he, ← List.singleton_append, Catalog.entriesOf_append, hmore]
      split
      · rename_i heq
        rw [Catalog.entriesOf_of_aim (by simpa [haim] using (hiff ht hd hj).mpr heq.symm), heq,
          LocalTables.get?_eq_none hnot, Option.bind_some, he]
        rfl
      · rename_i hne
        rw [Catalog.entriesOf_of_ne, List.nil_append]
        intro e' he' heq
        obtain rfl := List.mem_singleton.mp he'
        exact hne ((hiff ht hd hj).mp (Option.some.inj (haim.symm.trans heq))).symm

/-- **The entries of a commit that are about a mirror** are those for the changes of its table and
for the rows inserted into it. -/
theorem entriesOf_mirror (ht : s.database.catalog.tables[table]? = some t) (hd : t.dropped = false)
    (hj : m.find? t.name = some j) : m.entriesOf j s.entries = s.entriesFor table := by
  rw [entries, Catalog.entriesOf_append, entriesFor]
  congr 1
  · rw [Catalog.entriesOf, List.filter_flatMap]
    refine List.flatMap_congr fun change hm => ?_
    obtain ⟨i, hi, -, hiff⟩ := aim_change h hp hmir hm table j t
    have haim : ∀ e ∈ s.changeOf change, m.aim? e = some i := fun e he => by
      rw [Catalog.aim?, target_changeOf he, Option.bind_some, hi]
    split
    · rename_i heq
      exact Catalog.entriesOf_of_aim fun e he => (hiff ht hd hj).mpr heq ▸ haim e he
    · rename_i hne
      refine Catalog.entriesOf_of_ne fun e he heq => hne ((hiff ht hd hj).mp ?_)
      exact Option.some.inj ((haim e he).symm.trans heq)
  · rw [insertion_eq]
    refine entriesOf_insertions h hp hmir ht hd hj (fun p hm => hm) ?_
    exact (h.recorded _ List.mem_cons_self).locals.nodup

end

/-- **The mirror of a table can be changed** as a commit changes the table. -/
theorem plays_mirror (h : s.database.Sound (s.transaction :: others))
    (hmir : Catalog.Mirrors s.database.lastCommit s.database.catalog m)
    (hlt : s.database.lastCommit + 1 < firstTransaction) {t' : Table}
    (ht : s.database.catalog.tables[table]? = some t) (hd : t.dropped = false)
    (hcom : Table.Commits s.transaction (s.database.lastCommit + 1) table t t') {j : TableId}
    (hj : m.find? t.name = some j) (hu : m.tables[j]? = some u) :
    ∃ u', Table.Plays (s.database.lastCommit + 1) (s.entriesFor table) u u' ∧
      Table.Mirrors (s.database.lastCommit + 1) t' u' ∧ u'.name = u.name ∧
      u'.definitions = u.definitions ∧ u'.dropped = u.dropped := by
  have hids : ∀ y ∈ s.transaction :: others,
      s.database.lastCommit + 1 < y.id ∧ y.id < neverDeleted := fun y hy =>
    ⟨Nat.lt_of_lt_of_le hlt (h.ids y hy).1, h.ids_lt y hy⟩
  obtain ⟨i, u', hi, hu', hmu⟩ := hmir.tables table t ht hd
  obtain rfl := Option.some.inj (hj.symm.trans hi)
  obtain rfl := Option.some.inj (hu.symm.trans hu')
  obtain ⟨u₁, hplay, hr⟩ := plays_changes h (fun c (hc : c ∈ s.transaction.undo) => hc) ht
    hmu.sound hmu.definitions_eq hmu.rows_eq (s.database.lastCommit + 1)
  obtain ⟨u', hmu', he, hadd⟩ := hmu.commit (h.catalog.tables table t ht).1 hcom
    (h.owned table t ht) h.others_ne hids (Nat.lt_trans hlt (by decide)) (fun i r hi => by
      have hcolumn := column_lt_of_images h ht hi
      exact value_eq_valueOf h ht hcolumn (lt_of_images h ht hcolumn hi)) hr
  refine ⟨u', hplay.append ?_, hmu', ?_, ?_, ?_⟩
  · rw [insertion]
    rcases hadd with ⟨hnil, rfl⟩ | ⟨hne, range, happend⟩
    · rw [if_pos hnil]
      exact .nil u'
    · rw [if_neg hne]
      exact .single (by rw [Table.enact, happend]; rfl)
  · exact he.name_eq.trans hr.keeps.name_eq
  · exact he.definitions_eq.trans hr.keeps.definitions_eq
  · exact he.dropped_eq.trans hr.keeps.dropped_eq

/-- **The entries of a commit can be replayed** in every table of a mirror: in those of tables that
are dropped there are none. -/
theorem plays_entries (h : s.database.Sound (s.transaction :: others))
    (hp : ∀ change ∈ s.transaction.undo, (s.table change.table).dropped = false)
    (hmir : Catalog.Mirrors s.database.lastCommit s.database.catalog m)
    (hlt : s.database.lastCommit + 1 < firstTransaction) {c' : Catalog}
    (hc : Catalog.Each (Table.Commits s.transaction (s.database.lastCommit + 1))
      s.database.catalog c') {j : TableId} (hu : m.tables[j]? = some u) :
    ∃ u', Table.Plays (s.database.lastCommit + 1) (m.entriesOf j s.entries) u u' ∧ u'.Sound ∧
      u'.name = u.name ∧ u'.definitions = u.definitions ∧ u'.dropped = u.dropped := by
  by_cases htwin : ∃ (id : Nat) (t : Table), s.database.catalog.tables[id]? = some t ∧
      t.dropped = false ∧ m.find? t.name = some j
  · obtain ⟨id, t, ht, hd, hj⟩ := htwin
    obtain ⟨t', ht', hcom⟩ := hc.tables id t ht
    obtain ⟨u', hplay, hmu', hkept⟩ := plays_mirror h hmir hlt ht hd hcom hj hu
    exact ⟨u', entriesOf_mirror h hp hmir ht hd hj ▸ hplay, hmu'.sound, hkept⟩
  · refine ⟨u, ?_, (hmir.sound.tables j u hu).1, rfl, rfl, rfl⟩
    rw [Catalog.entriesOf_of_ne fun e he heq => ?_]
    · exact .nil u
    · obtain ⟨change, hm, htarget⟩ := target_entries h he
      obtain ⟨t, ht, hd, htable⟩ := table_of_change h hp hm
      rw [Catalog.aim?, htarget, Option.bind_some, htable] at heq
      exact htwin ⟨_, t, ht, hd, heq⟩

end Session

/-- **The group of a commit is replayed in the mirror of a catalog** as it is applied to the tables.
-/
theorem Catalog.Mirrors.commit {s : Session} {others : List Transaction} {m c' : Catalog}
    {last : Stamp} (hmir : Mirrors last s.database.catalog m)
    (h : s.database.Sound (s.transaction :: others)) (hlast : last = s.database.lastCommit)
    (hlt : last + 1 < firstTransaction)
    (hp : ∀ change ∈ s.transaction.undo, (s.table change.table).dropped = false)
    (hc : Each (Table.Commits s.transaction (last + 1)) s.database.catalog c')
    (policy : SegmentPolicy) :
    ∃ m', Replay.applyGroup policy (last + 1) m s.entries = (.ok (), m') ∧
      Mirrors (last + 1) c' m' := by
  subst hlast
  obtain ⟨m', hm', heach⟩ := Replay.applyGroup_of_plays policy (s.database.lastCommit + 1) m
    s.entries (fun e he => by
      obtain ⟨change, hm, htarget⟩ := Session.target_entries h he
      obtain ⟨i, hi, hsize, -⟩ :=
        Session.aim_change h hp hmir hm 0 0 default
      exact ⟨i, by rw [aim?, htarget, Option.bind_some, hi], hsize⟩) fun j u hu => by
    obtain ⟨u', hplay, -⟩ := Session.plays_entries h hp hmir hlt hc hu
    exact ⟨u', hplay⟩
  refine ⟨m', hm', ?_, ?_, fun id t' ht' hd' => ?_⟩
  · refine (hmir.sound.each heach fun j u u' hu hplay => ?_).1
    obtain ⟨u'', hplay', hkept⟩ := Session.plays_entries h hp hmir hlt hc hu
    obtain rfl := hplay.det hplay'
    exact hkept
  · rw [heach.names_eq, hc.names_eq, hmir.names_eq]
  · obtain ⟨t, ht, hcom⟩ := hc.of_some ht'
    have hd : t.dropped = false := hcom.dropped_eq ▸ hd'
    obtain ⟨j, u, hj, hu, -⟩ := hmir.tables id t ht hd
    obtain ⟨u', hplay, hmu', -⟩ := Session.plays_mirror h hmir hlt ht hd hcom hj hu
    obtain ⟨u'', hu'', hplay'⟩ := heach.tables j u hu
    rw [Session.entriesOf_mirror h hp hmir ht hd hj] at hplay'
    obtain rfl := hplay.det hplay'
    refine ⟨j, u'', ?_, hu'', hmu'⟩
    rw [hcom.name_eq, find?, heach.names_eq]
    exact hj

end ColumnStore
