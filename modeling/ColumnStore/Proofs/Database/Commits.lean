/-
# What a commit leaves

In every table the rows of the transaction are behind the old ones, and where its number stood there
is the time of the commit (`Commits`).  Then nothing in the database belongs to the transaction any
more, and the others do not notice (`commit_cases`).
-/

import ColumnStore.Proofs.Database.Committing

namespace ColumnStore

/-- The rows that a transaction has inserted into a table and not deleted. -/
def Transaction.rowsOf (x : Transaction) (table : TableId) : List Row :=
  match x.locals.get? table with
  | none => []
  | some l => l.liveRows

/-- What a commit does to a table: the rows of the transaction are behind the old ones, and its
number is replaced by the time. -/
structure Table.Commits (x : Transaction) (time : Stamp) (table : TableId) (t t' : Table) :
    Prop where
  sound : t'.Sound
  name_eq : t'.name = t.name
  definitions_eq : t'.definitions = t.definitions
  policy_eq : t'.policy = t.policy
  dropped_eq : t'.dropped = t.dropped
  rows_eq : t'.rows = t.rows + (x.rowsOf table).length
  stamps_old : ∀ r, r < t.rows →
    t'.stamps? r = (t.stamps? r).map (RowStamps.commitDelete x.id time)
  stamps_new : ∀ r, t.rows ≤ r → t'.stamps? r =
    if r < t.rows + (x.rowsOf table).length then some { inserted := time } else none
  chain_eq : ∀ i r, t'.chain i r = (t.chain i r).map (Overlay.restamp x.id time)
  under_old : ∀ source i r, r < t.rows → t'.under source i r = t.under source i r
  under_new : ∀ source i k y, i < t.columns.length →
    (columnOf (x.rowsOf table) i)[k]? = some y → t'.under source i (t.rows + k) = .ok y
  stored_eq : t'.stored = t.stored
  /-- The values under the updates are those of the table with the rows added. -/
  added : (x.rowsOf table = [] ∧ t'.columns.map Column.bare = t.columns.map Column.bare) ∨
    x.rowsOf table ≠ [] ∧ ∃ vectors slots range t₁, t.append vectors slots time = (.ok range, t₁) ∧
      HoldRows vectors slots (x.rowsOf table) ∧ vectors.map ValueVector.type = t.types ∧
      (∀ row ∈ x.rowsOf table, FitsTypes row t.types) ∧
      t'.columns.map Column.bare = t₁.columns.map Column.bare

namespace Session

variable {s : Session} {others : List Transaction} {table : TableId} {t t₁ t' : Table}
  {time : Stamp}

/-- Rows and columns that no change names do not carry the number of the transaction. -/
theorem settles_all (h : s.database.Sound (s.transaction :: others))
    (ht : s.database.catalog.tables[table]? = some t) (hold : ∀ r, r < t.rows →
      t₁.stamps? r = t.stamps? r) (hnew : ∀ r, t.rows ≤ r → ∀ st, t₁.stamps? r = some st →
      st.deleted = neverDeleted) (hchain : ∀ i r, t₁.chain i r = t.chain i r)
    (hs : Table.Settles s.transaction.id time s.transaction.undo table t₁ t') :
    (∀ r, t'.stamps? r = (t₁.stamps? r).map (RowStamps.commitDelete s.transaction.id time)) ∧
      ∀ i r, t'.chain i r = (t.chain i r).map (Overlay.restamp s.transaction.id time) := by
  have hown := h.owned table t ht
  have hid := h.last_lt_ids _ List.mem_cons_self
  refine ⟨fun r => ?_, fun i r => ?_⟩
  · rw [hs.stamps_eq r]
    split
    · rfl
    · rename_i hr
      cases hst : t₁.stamps? r with
      | none => rfl
      | some st =>
        have hne : st.deleted ≠ s.transaction.id := by
          by_cases hlt : r < t.rows
          · have hrow := hown.rows r
            rw [← hold r hlt, hst] at hrow
            exact hrow.deleted_ne h.others_ne hid (h.ids_lt _ List.mem_cons_self) hr
          · rw [hnew r (Nat.le_of_not_lt hlt) st hst]
            exact (Nat.ne_of_lt (h.ids_lt _ List.mem_cons_self)).symm
        rw [Option.map_some, RowStamps.commitDelete, if_neg hne]
  · rw [hs.chain_eq i r, hchain]
    split
    · rfl
    · rename_i hr
      have himages : s.transaction.images table i r = [] := valuesFor_eq_nil.mpr hr
      exact (map_restamp_of_ne ((hown.cells i r).stamp_ne h.others_ne hid himages)).symm

/-- The rows of the transaction are added, unless there are none. -/
theorem gains_cases (h : s.database.Sound (s.transaction :: others))
    (ht : s.database.catalog.tables[table]? = some t)
    (hg : Table.Gains s.transaction.locals time table t t₁) :
    (t₁ = t ∧ s.transaction.rowsOf table = []) ∨
      s.transaction.rowsOf table ≠ [] ∧
        ∃ vectors slots range, t.append vectors slots time = (.ok range, t₁) ∧
          HoldRows vectors slots (s.transaction.rowsOf table) ∧
          vectors.map ValueVector.type = t.types ∧
          ∀ row ∈ s.transaction.rowsOf table, FitsTypes row t.types := by
  have hl := locals_ok h ht
  unfold Table.Gains at hg
  unfold locals? at hl
  cases hget : s.transaction.locals.get? table with
  | none =>
    rw [hget] at hg
    exact Or.inl ⟨hg, by rw [Transaction.rowsOf, hget]⟩
  | some l =>
    rw [hget] at hg hl
    have hrows : s.transaction.rowsOf table = l.liveRows := by rw [Transaction.rowsOf, hget]
    obtain ⟨hhold, hfits, hnil⟩ := LocalRows.holdRows_live hl.1
    dsimp only at hg
    by_cases hlive : l.live = []
    · rw [if_pos hlive] at hg
      exact Or.inl ⟨hg, by rw [hrows, hnil.mpr hlive]⟩
    · rw [if_neg hlive] at hg
      obtain ⟨range, happend⟩ := hg
      exact Or.inr ⟨hrows ▸ mt hnil.mp hlive, _, _, range, happend, hrows ▸ hhold, hl.1.types_eq, hrows ▸ hfits⟩

/-- **What the steps of a commit do to a table.** -/
theorem commits_ok (h : s.database.Sound (s.transaction :: others))
    (ht : s.database.catalog.tables[table]? = some t)
    (hg : Table.Gains s.transaction.locals time table t t₁)
    (hs : Table.Settles s.transaction.id time s.transaction.undo table t₁ t') :
    Table.Commits s.transaction time table t t' := by
  have hts := (h.catalog.tables table t ht).1
  rcases gains_cases h ht hg with ⟨rfl, hnil⟩ |
    ⟨hne, vectors, slots, range, happend, hhold, htypes, hfits⟩
  · -- A table that gains nothing is as it was.
    obtain ⟨hstamps, hchain⟩ := settles_all h ht (fun _ _ => rfl) (fun r hr st hst => by
      rw [Table.stamps?_eq_none.mpr hr] at hst
      cases hst) (fun _ _ => rfl) hs
    refine ⟨hs.keeps.sound hts, hs.keeps.name_eq, hs.keeps.definitions_eq, hs.keeps.policy_eq,
      hs.keeps.dropped_eq, by rw [hnil]; exact hs.keeps.rows_eq, fun r _ => hstamps r,
      fun r hr => ?_, hchain, fun source i r _ => hs.keeps.under_eq source i r,
      fun source i k y _ hk => ?_, hs.keeps.stored_eq, Or.inl ⟨hnil, hs.keeps.bare_eq⟩⟩
    · rw [hstamps r, Table.stamps?_eq_none.mpr hr, hnil, if_neg (by simpa using hr)]
      rfl
    · rw [hnil] at hk
      cases hk
  · have hadds := Table.append_ok hts hhold happend
    have hnew : ∀ r, t.rows ≤ r → ∀ st, t₁.stamps? r = some st → st.deleted = neverDeleted := by
      intro r hr st hst
      rw [hadds.stamps_new hr] at hst
      split at hst
      · rw [← Option.some.inj hst]
      · cases hst
    obtain ⟨hstamps, hchain⟩ :=
      settles_all h ht (fun r hr => hadds.stamps_old hr) hnew hadds.chain_eq hs
    refine ⟨hs.keeps.sound hadds.sound, hs.keeps.name_eq.trans hadds.name_eq,
      hs.keeps.definitions_eq.trans hadds.definitions_eq,
      hs.keeps.policy_eq.trans hadds.policy_eq, hs.keeps.dropped_eq.trans hadds.dropped_eq,
      hs.keeps.rows_eq.trans hadds.rows_eq, fun r hr => ?_, fun r hr => ?_, hchain,
      fun source i r hr => ?_, fun source i k y hi hk => ?_,
      hs.keeps.stored_eq.trans (Table.stored_append hts hhold happend),
      Or.inr ⟨hne, vectors, slots, range, t₁, happend, hhold, htypes, hfits, hs.keeps.bare_eq⟩⟩
    · rw [hstamps r, hadds.stamps_old hr]
    · rw [hstamps r, hadds.stamps_new hr]
      split
      · rw [Option.map_some, RowStamps.commitDelete,
          if_neg (Nat.ne_of_lt (h.ids_lt _ List.mem_cons_self)).symm]
      · rfl
    · rw [hs.keeps.under_eq, hadds.under_old source i r hr]
    · rw [hs.keeps.under_eq]
      exact hadds.under_new source i k y hi hk

end Session

section

variable {last time : Stamp} {x : Transaction} {others : List Transaction} {table : TableId}

/-- Whether or not the transaction has deleted a row, its number does not stand there once it has
committed. -/
theorem RowOwned.commit {row : Nat} {st : RowStamps}
    (h : RowOwned last (x :: others) table row (some st)) (ho : ∀ y ∈ others, y.id ≠ x.id)
    (hid : last < x.id) (hlt : x.id < neverDeleted) (ht : last < time) :
    RowOwned time others table row (some (st.commitDelete x.id time)) := by
  by_cases hx : row ∈ x.deletedRows table
  · exact h.settle ho ht hx
  · rw [RowStamps.commitDelete, if_neg (h.deleted_ne ho hid hlt hx)]
    exact (h.release hx).mono (Nat.le_of_lt ht)

theorem CellOwned.of_nil {active : List Transaction} {column row : Nat}
    {under : Except StorageError Scalar} (under' : Except StorageError Scalar)
    (h : CellOwned last active table column row under []) :
    CellOwned last active table column row under' [] := by
  rcases h with hs | ⟨y, settled, values, hy⟩
  · exact Or.inl hs
  · have := (List.append_eq_nil_iff.mp hy.chain_eq.symm).2
    exact absurd (List.map_eq_nil_iff.mp this) hy.nonempty

theorem Table.chain_of_le {t : Table} (h : t.Sound) {r : Nat} (hr : t.rows ≤ r) (i : Nat) :
    t.chain i r = [] := by
  cases hc : t.columns[i]? with
  | none => exact Table.chain_of_none hc r
  | some c =>
    obtain ⟨d, -, -, hd⟩ := Table.holds_of_some h hc
    rw [Table.chain_of_some hc]
    exact Column.chain_of_le (hd.rows_eq.symm ▸ hr)

/-- **After its commit nothing in a table belongs to a transaction.** -/
theorem TableOwned.commit {source : Source} {safe : StoredValues → Prop} {t t' : Table}
    (h : TableOwned last source safe (x :: others) table t) (hts : t.Sound)
    (hc : Table.Commits x time table t t') (ho : ∀ y ∈ others, y.id ≠ x.id) (hid : last < x.id)
    (hlt : x.id < neverDeleted) (ht : last < time) :
    TableOwned time source safe others table t' where
  rows r := by
    have hrow := h.rows r
    rcases Nat.lt_or_ge r t.rows with hr | hr
    · rw [hc.stamps_old r hr]
      obtain ⟨st, hst⟩ := Table.stamps?_of_lt hr
      rw [hst] at hrow ⊢
      exact hrow.commit ho hid hlt ht
    · rw [Table.stamps?_eq_none.mpr hr] at hrow
      have hnone : ∀ y ∈ others, r ∉ y.deletedRows table :=
        fun y hy => hrow y (List.mem_cons_of_mem _ hy)
      rw [hc.stamps_new r hr]
      split
      · exact ⟨Nat.le_refl _, Or.inl ⟨Or.inr rfl, hnone⟩⟩
      · exact hnone
  cells i r := by
    have hcell := (h.cells i r).settle ho hid ht
    rw [hc.chain_eq i r]
    rcases Nat.lt_or_ge r t.rows with hr | hr
    · rw [hc.under_old source i r hr]
      exact hcell
    · rw [Table.chain_of_le hts hr, List.map_nil] at hcell ⊢
      exact hcell.of_nil _
  readable c hm row hrow := by
    obtain ⟨i, hi⟩ := List.mem_iff_getElem?.mp hm
    obtain ⟨d, hd, -, hh⟩ := Table.holds_of_some hc.sound hi
    have hlen : i < t.columns.length := by
      rw [Table.length_columns hts, ← hc.definitions_eq]
      exact (List.getElem?_eq_some_iff.mp hd).1
    rw [hh.rows_eq, hc.rows_eq] at hrow
    rw [← Table.under_of_some hi]
    rcases Nat.lt_or_ge row t.rows with hr | hr
    · rw [hc.under_old source i row hr]
      have hcol := List.getElem?_eq_getElem hlen
      obtain ⟨d₀, -, -, hh₀⟩ := Table.holds_of_some hts hcol
      rw [Table.under_of_some hcol]
      exact h.readable _ (List.mem_of_getElem? hcol) row (hh₀.rows_eq ▸ hr)
    · obtain ⟨k, rfl⟩ := Nat.exists_eq_add_of_le hr
      have hk : k < (columnOf (x.rowsOf table) i).length := by
        rw [length_columnOf]
        omega
      exact ⟨_, hc.under_new source i k _ hlen (List.getElem?_eq_getElem hk)⟩
  safe v hv := h.safe v (hc.stored_eq ▸ hv)
  fits i type htype r v hv := by
    rw [Table.types, hc.definitions_eq] at htype
    rw [hc.chain_eq i r] at hv
    obtain ⟨w, hw, rfl⟩ := List.mem_map.mp hv
    have hfit := h.fits i type htype r w hw
    unfold Overlay.restamp
    split
    · exact hfit
    · exact hfit

end

/-! ## Writing to the log -/

theorem Disk.bytes_writeAt (d : Disk) {file other : FileId} (h : other ≠ file) (start : Nat)
    (b : Bytes) : (d.writeAt file start b).bytes other = d.bytes other := by
  unfold writeAt
  split
  · rfl
  · rw [bytes, write, Array.getD_eq_getD_getElem?, Array.getElem?_setIfInBounds_ne (Ne.symm h),
      bytes, Array.getD_eq_getD_getElem?]

/-- A database with more bytes in its log. -/
def Database.withLog (db : Database) (b : Bytes) : Database :=
  { db with
    log := { db.log with length := db.log.length + b.length }
    disk := db.disk.writeAt db.log.file db.log.length b }

/-- What writing a group to the log does. -/
theorem Database.appendLog_ok {db db' : Database} {entries : List LogEntry}
    (hok : db.appendLog entries = .ok db') :
    ∃ b, Frame.encodeAll entries = .ok b ∧ db' = db.withLog b := by
  unfold appendLog at hok
  split at hok
  · rename_i log disk ha
    unfold LogWriter.append at ha
    split at ha
    · cases ha
    · obtain ⟨b, hb, hw⟩ := bind_eq_ok.mp ha
      obtain ⟨rfl, rfl⟩ := Prod.mk.inj (Except.ok.inj hw)
      exact ⟨b, hb, (Except.ok.inj hok).symm⟩
  · cases hok
  · cases hok

/-- Bytes that are not in a stored segment do not matter. -/
theorem TableOwned.reread {last : Stamp} {source source' : Source} {safe : StoredValues → Prop}
    {active : List Transaction} {id : TableId} {t : Table}
    (h : TableOwned last source safe active id t)
    (hs : ∀ v, safe v → source'.load v = source.load v) :
    TableOwned last source' safe active id t where
  rows := h.rows
  cells i r := by
    rw [Table.under_congr fun v hv => hs v (h.safe v hv)]
    exact h.cells i r
  readable c hc row hrow := by
    rw [Column.under_congr fun v hv => hs v (h.safe.column hc v hv)]
    exact h.readable c hc row hrow
  safe := h.safe
  fits := h.fits

/-- **Writing to the log changes nothing that is read.** -/
theorem Database.Sound.withLog {db : Database} {active : List Transaction} (h : db.Sound active)
    (b : Bytes) : (db.withLog b).Sound active := by
  have hload : ∀ v, db.SafeFile v → (db.disk.writeAt db.log.file db.log.length b).source.load v =
      db.disk.source.load v := fun v hv => Disk.load_congr (Disk.bytes_writeAt db.disk hv _ b)
  exact { h with
    owned := fun id t ht => (h.owned id t ht).reread hload
    kept := fun v x hv hx => (hload v hv).trans (h.kept v x hv hx) }

namespace Database

variable {db : Database} {x : Transaction} {others : List Transaction} {time : Stamp}

/-- **A commit leaves the database sound for the others.** -/
theorem Sound.commit (h : db.Sound (x :: others)) {c' : Catalog}
    (hc : Catalog.Each (Table.Commits x time) db.catalog c') (ht : time = db.lastCommit + 1)
    (hlt : time < firstTransaction) :
    (({ db with catalog := c' }.publish time).unregister x.id).Sound others := by
  obtain ⟨hsound, htypes⟩ := h.catalog.each hc fun _ _ _ _ hr =>
    ⟨hr.sound, hr.name_eq, hr.definitions_eq, hr.dropped_eq⟩
  have hlast : db.lastCommit < time := ht ▸ Nat.lt_succ_self _
  refine ⟨hsound, hlt, h.next_ge, h.next_le, (List.nodup_cons.mp h.distinct).2, fun y hy => ?_,
    fun i => ?_, fun y hy => ?_, fun j t' ht' => ?_, h.kept⟩
  · obtain ⟨hge, hlt, hstart⟩ := h.ids y (List.mem_cons_of_mem _ hy)
    exact ⟨hge, hlt, Nat.le_trans hstart (Nat.le_of_lt hlast)⟩
  · exact h.listed_others i
  · change y.Recorded c'.types?
    rw [htypes]
    exact h.recorded y (List.mem_cons_of_mem _ hy)
  · obtain ⟨t, htable, hr⟩ := hc.of_some ht'
    exact (h.owned j _ htable).commit (h.catalog.tables j _ htable).1 hr h.others_ne
      (h.last_lt_ids x List.mem_cons_self) (h.ids_lt x List.mem_cons_self) hlast

end Database

namespace Session

variable {s : Session} {others : List Transaction}

/-- What a commit did that went through: its group is in the log, and what it names has the time of
the commit. -/
structure Commits (s s' : Session) (time : Stamp) : Prop where
  nonempty : s.transaction.undo ≠ []
  present : ∀ change ∈ s.transaction.undo, (s.table change.table).dropped = false
  transaction_eq : s'.transaction =
    { s.transaction.forget with state := .committed, commitTime := some time }
  database_eq : ∃ decoded b c', Frame.encodeAll (s.group time) = .ok b ∧
    Catalog.Each (Table.Commits s.transaction time) s.database.catalog c' ∧
    s'.database = ({ (s.database.remember decoded).withLog b with catalog := c' }.publish
      time).unregister s.transaction.id

theorem droppedTable?_none (h : s.droppedTable? = none) :
    ∀ change ∈ s.transaction.undo, (s.table change.table).dropped = false := by
  intro change hm
  have := List.find?_eq_none.mp (Option.map_eq_none_iff.mp h) change hm
  simpa using this

/-- A row that the transaction has deleted is in its table. -/
theorem lt_of_deleted (h : s.database.Sound (s.transaction :: others)) {table : TableId}
    {t : Table} (ht : s.database.catalog.tables[table]? = some t) {row : Nat}
    (hr : row ∈ s.transaction.deletedRows table) : row < t.rows := by
  by_contra hge
  have hrow := (h.owned table t ht).rows row
  rw [Table.stamps?_eq_none.mpr (Nat.le_of_not_lt hge)] at hrow
  exact hrow _ List.mem_cons_self hr

theorem of_delete_mem (h : s.database.Sound (s.transaction :: others)) {table : TableId}
    {rows : List Nat} (hm : UndoRecord.delete table rows ∈ s.transaction.undo) :
    ∃ t, s.database.catalog.tables[table]? = some t ∧ ∀ row ∈ committedRows rows,
      row ∈ s.transaction.deletedRows table ∧ row < t.rows := by
  obtain ⟨front, hsome⟩ := (h.recorded _ List.mem_cons_self).undoable.mem hm
  obtain ⟨t, ht⟩ := table_of_isSome (c := s.database.catalog) hsome
  refine ⟨t, ht, fun row hrow => ?_⟩
  have hdeleted : row ∈ s.transaction.deletedRows table := by
    refine List.mem_flatMap.mpr ⟨_, hm, ?_⟩
    rw [UndoRecord.deletedRows, if_pos rfl]
    exact hrow
  exact ⟨hdeleted, lt_of_deleted h ht hdeleted⟩

/-- The recorded changes are of rows that are there. -/
theorem undo_within (h : s.database.Sound (s.transaction :: others)) :
    ∀ change ∈ s.transaction.undo, change.Within s.database.catalog := by
  intro change hm
  cases change with
  | insert => trivial
  | delete table rows =>
    obtain ⟨t, ht, hrows⟩ := of_delete_mem h hm
    exact ⟨t, ht, fun r hr => (hrows r hr).2⟩
  | update table column rows before =>
    obtain ⟨t, ht, hcolumn, hlen, hrows⟩ := of_update_mem h hm
    exact ⟨t, ht, hcolumn, hlen, fun r hr => (hrows r hr).2⟩

/-- Added rows leave the rows that are changed where they are. -/
theorem within_gains (h : s.database.Sound (s.transaction :: others)) {time : Stamp}
    {c : Catalog} (hc : Catalog.Each (Table.Gains s.transaction.locals time) s.database.catalog c) :
    (∀ (j : Nat) (t : Table), c.tables[j]? = some t → t.Sound) ∧
      ∀ change ∈ s.transaction.undo, change.Within c := by
  have hgain : ∀ (j : Nat) (t t₁ : Table), s.database.catalog.tables[j]? = some t →
      Table.Gains s.transaction.locals time j t t₁ →
      t₁.Sound ∧ t.rows ≤ t₁.rows ∧ t₁.columns.length = t.columns.length := by
    intro j t t₁ ht hg
    have hts := (h.catalog.tables j t ht).1
    rcases gains_cases h ht hg with ⟨rfl, -⟩ | ⟨-, vectors, slots, range, happend, hhold, -, -⟩
    · exact ⟨hts, Nat.le_refl _, rfl⟩
    · have hadds := Table.append_ok hts hhold happend
      exact ⟨hadds.sound, hadds.rows_eq ▸ Nat.le_add_right _ _, hadds.columns.length_eq.symm⟩
  refine ⟨fun j t₁ ht₁ => ?_, fun change hm => ?_⟩
  · obtain ⟨t, ht, hr⟩ := hc.of_some ht₁
    exact (hgain j t t₁ ht hr).1
  · have hw := undo_within h change hm
    cases change with
    | insert => trivial
    | delete table rows =>
      obtain ⟨t, ht, hrows⟩ := hw
      obtain ⟨t₁, ht₁, hr⟩ := hc.tables table t ht
      obtain ⟨-, hle, -⟩ := hgain table t t₁ ht hr
      exact ⟨t₁, ht₁, fun r hm => Nat.lt_of_lt_of_le (hrows r hm) hle⟩
    | update table column rows before =>
      obtain ⟨t, ht, hcolumn, hlen, hrows⟩ := hw
      obtain ⟨t₁, ht₁, hr⟩ := hc.tables table t ht
      obtain ⟨-, hle, hcols⟩ := hgain table t t₁ ht hr
      exact ⟨t₁, ht₁, hcols ▸ hcolumn, hlen, fun r hm => Nat.lt_of_lt_of_le (hrows r hm) hle⟩

/-- **What is applied of changes that are in the log.** -/
theorem apply_ok (h : s.database.Sound (s.transaction :: others)) {time : Stamp} {s' : Session}
    (hne : s.transaction.id ≠ time) (hok : s.apply time = (.ok (), s')) :
    ∃ c', Catalog.Each (Table.Commits s.transaction time) s.database.catalog c' ∧
      s' = { s with database := { s.database with catalog := c' } } := by
  unfold apply onDatabase at hok
  rcases hl : Attempt.all (applyLocals time) s.database s.transaction.locals with ⟨e | ⟨⟨⟩⟩, db⟩
  · simp only [hl] at hok
    cases (Prod.mk.inj hok).1
  · simp only [hl] at hok
    have hlocals := (h.recorded _ List.mem_cons_self).locals
    obtain ⟨hdb, heach⟩ := applyAllLocals_ok hlocals.nodup (fun table hm => by
      obtain ⟨⟨table', l⟩, hml, rfl⟩ := List.mem_map.mp hm
      have hrows := hlocals.rows table'
      rw [LocalTables.get?_of_mem hlocals.nodup hml] at hrows
      obtain ⟨⟨types, htypes, -⟩, -⟩ := hrows
      exact table_of_isSome (c := s.database.catalog) (by rw [htypes]; rfl)) hl
    obtain ⟨hsound, hwithin⟩ := within_gains h heach
    obtain ⟨c', hall, hsettles⟩ := applyChanges_ok hsound hne hwithin
    rw [hall] at hok
    refine ⟨c', ⟨?_, ?_, fun j t ht => ?_⟩, by rw [← (Prod.mk.inj hok).2, hdb]⟩
    · exact hsettles.names_eq.trans heach.names_eq
    · exact hsettles.size_eq.trans heach.size_eq
    · obtain ⟨t₁, ht₁, hg⟩ := heach.tables j t ht
      obtain ⟨t', ht', hs⟩ := hsettles.tables j t₁ ht₁
      exact ⟨t', ht', commits_ok h ht hg hs⟩

/-- What comes of the commit of a transaction that may write.  The log may be written although rows
cannot be added to the tables in memory: then the commit is `lost` until the log is replayed. -/
inductive CommitOutcome (s : Session) (others : List Transaction) :
    Attempt TransactionError Session Stamp → Prop
  | dropped (name : String) (h : s.droppedTable? = some name) :
    CommitOutcome s others (.error (.storage (.tableNotFound name)), s.rollback.2)
  | empty (h : s.transaction.undo = [])
      (sound : (s.database.unregister s.transaction.id).Sound others) :
    CommitOutcome s others (.ok s.database.lastCommit, s.committed s.database.lastCommit)
  | refused (e : TransactionError) (decoded : Decoded)
      (sound : (s.database.remember decoded).Sound (s.transaction :: others)) :
    CommitOutcome s others (.error e, { s with database := s.database.remember decoded })
  | done (s' : Session) (h : Commits s s' (s.database.lastCommit + 1))
      (sound : s'.database.Sound others) :
    CommitOutcome s others (.ok (s.database.lastCommit + 1), s')
  | lost (e : TransactionError) (s' : Session) (h : s'.transaction.state = .committed) :
    CommitOutcome s others (.error e, s')

/-- **Every commit comes out in one of these ways.** -/
theorem commit_outcome (h : s.database.Sound (s.transaction :: others))
    (hw : s.transaction.Writing) (hlt : s.database.lastCommit + 1 < firstTransaction) :
    CommitOutcome s others s.commit := by
  rw [commit, whileActive_writing hw]
  cases hd : s.droppedTable? with
  | some name =>
    obtain ⟨db, he, -, -⟩ := rollback_ok h hw.active
    have : CommitOutcome s others _ := .dropped name hd
    rw [he] at this
    simp only [he, Attempt.andThen_ok]
    exact this
  | none =>
    by_cases hempty : s.transaction.undo = []
    · simp only [hempty, List.isEmpty_nil, if_true]
      exact .empty hempty (h.unregister hempty)
    simp only [List.isEmpty_iff, hempty, if_false]
    have htime : s.database.nextCommit = .ok (s.database.lastCommit + 1) := by
      rw [Database.nextCommit, if_pos (Nat.lt_trans hlt (by decide))]
    obtain ⟨hentries, hhonest⟩ := logEntries_ok h (s.database.lastCommit + 1)
    have hsound := h.remember hhonest
    generalize hkept : (s.logEntries s.database.source (s.database.lastCommit + 1)).decoded =
      decoded at hsound
    have hread : (s.onDatabase fun db => db.read fun source =>
        s.logEntries source (s.database.lastCommit + 1)) =
        (.ok (s.group (s.database.lastCommit + 1)),
          { s with database := s.database.remember decoded }) := by
      simp only [onDatabase, Database.read, hentries, hkept]
    rw [commitChanges, htime]
    simp only [hread]
    cases ha : (s.database.remember decoded).appendLog (s.group (s.database.lastCommit + 1)) with
    | error e => exact .refused e decoded hsound
    | ok db =>
      obtain ⟨b, hb, hdb⟩ := Database.appendLog_ok ha
      have hlogged : db.Sound (s.transaction :: others) := hdb ▸ hsound.withLog b
      have hne : s.transaction.id ≠ s.database.lastCommit + 1 := by
        have hge := (h.ids _ List.mem_cons_self).1
        exact fun heq => Nat.lt_irrefl _ (Nat.lt_of_lt_of_le (heq ▸ hlt) hge)
      simp only [commitLogged]
      rcases happ : apply ⟨db, s.transaction⟩ (s.database.lastCommit + 1) with ⟨e | ⟨⟨⟩⟩, s'⟩
      · exact .lost _ _ rfl
      · obtain ⟨c', hc, rfl⟩ := apply_ok (s := ⟨db, s.transaction⟩) hlogged hne happ
        have hend := hlogged.commit hc (by rw [hdb]; rfl) hlt
        subst hdb
        exact .done _ ⟨hempty, droppedTable?_none hd, rfl, decoded, b, c', hb, hc, rfl⟩ hend

end Session

end ColumnStore
