/-
# Changes of the schema

Creating and dropping a table commits at once.  Both are written to the log first; nothing that is
in the tables changes, and the active transactions go on.
-/

import ColumnStore.Proofs.Database.Commits
import ColumnStore.Proofs.Log.Frames
import ColumnStore.Proofs.Table.Loading

namespace ColumnStore

theorem Table.Sound.withDropped {t : Table} (h : t.Sound) (dropped : Bool) :
    Table.Sound { t with dropped } :=
  ⟨h.columns.imp fun _ _ hc => ⟨hc.sound, hc.type_eq, hc.policy_eq, hc.rows_eq⟩, h.capacity⟩

/-! ## Names -/

namespace Catalog

/-- A name is put among the others. -/
theorem insertName_perm (name : String) (id : TableId) (names : List (String × TableId)) :
    (insertName name id names).Perm ((name, id) :: names) := by
  induction names with
  | nil => exact List.Perm.refl _
  | cons p rest ih =>
    obtain ⟨n, i⟩ := p
    unfold insertName
    split
    · exact List.Perm.refl _
    · exact (ih.cons (n, i)).trans (List.Perm.swap ..)

theorem contains_eq_false {c : Catalog} {name : String} (h : c.contains name = false) :
    name ∉ c.names.map (·.1) := by
  rw [contains, Option.isSome_eq_false_iff, Option.isNone_iff_eq_none, find?,
    List.lookup_eq_none_iff] at h
  intro hm
  obtain ⟨p, hp, rfl⟩ := List.mem_map.mp hm
  exact absurd (h p hp) (by simp)

theorem insert_ok {c c' : Catalog} {t : Table} {id : TableId} (hok : c.insert t = .ok (id, c')) :
    t.name ∉ c.names.map (·.1) ∧ id = c.tables.size ∧
      c' = { tables := c.tables.push t, names := insertName t.name c.tables.size c.names } := by
  unfold insert at hok
  cases hc : c.contains t.name with
  | true =>
    rw [if_pos hc] at hok
    cases hok
  | false =>
    rw [if_neg (by simp [hc])] at hok
    obtain ⟨rfl, rfl⟩ := Prod.mk.inj (Except.ok.inj hok)
    exact ⟨contains_eq_false hc, rfl, rfl⟩

theorem remove_ok {c c' : Catalog} {name : String} {id : TableId}
    (hok : c.remove name = .ok (id, c')) : c.get name = .ok id ∧
      c' = { tables := (c.setTable id { c.table id with dropped := true }).tables
             names := c.names.filter (·.1 ≠ name) } := by
  obtain ⟨i, hi, hr⟩ := bind_eq_ok.mp hok
  obtain ⟨rfl, rfl⟩ := Prod.mk.inj (Except.ok.inj hr)
  exact ⟨hi, rfl⟩

theorem getElem?_push (c : Catalog) (t : Table) (names : List (String × TableId)) (j : Nat) :
    ({ tables := c.tables.push t, names } : Catalog).tables[j]? =
      if j = c.tables.size then some t else c.tables[j]? := Array.getElem?_push

/-- **A table with a free name can be added.** -/
theorem Sound.insert {c c' : Catalog} (h : c.Sound) {t : Table} (hs : t.Sound)
    (hd : t.definitions.length < UInt64.size) (hdropped : t.dropped = false) {id : TableId}
    (hok : c.insert t = .ok (id, c')) : c'.Sound := by
  obtain ⟨hfree, -, rfl⟩ := insert_ok hok
  have hperm := insertName_perm t.name c.tables.size c.names
  refine ⟨fun j u hu => ?_, ?_, fun name j hn => ?_, fun j u hu hd => ?_⟩
  · rw [getElem?_push] at hu
    split at hu
    · obtain rfl := Option.some.inj hu
      exact ⟨hs, hd⟩
    · exact h.tables j u hu
  · exact (hperm.map _).nodup_iff.mpr (List.nodup_cons.mpr ⟨hfree, h.names_nodup⟩)
  · rw [getElem?_push]
    rcases List.mem_cons.mp (hperm.mem_iff.mp hn) with heq | hm
    · obtain ⟨rfl, rfl⟩ := Prod.mk.inj heq
      exact ⟨t, if_pos rfl, rfl, hdropped⟩
    · obtain ⟨u, hu, hname, hdrop⟩ := h.named name j hm
      exact ⟨u, by rw [if_neg (Nat.ne_of_lt (lt_of_some hu)), hu], hname, hdrop⟩
  · refine hperm.mem_iff.mpr ?_
    rw [getElem?_push] at hu
    split at hu
    · rename_i hj
      obtain rfl := Option.some.inj hu
      exact hj ▸ List.mem_cons_self
    · exact List.mem_cons_of_mem _ (h.unnamed j u hu hd)

theorem mem_of_get {c : Catalog} {name : String} {id : TableId} (h : c.get name = .ok id) :
    (name, id) ∈ c.names := by
  unfold get find? at h
  split at h
  · rename_i i hi
    obtain rfl := Except.ok.inj h
    obtain ⟨l₁, l₂, heq, -⟩ := List.lookup_eq_some_iff.mp hi
    rw [heq]
    simp
  · cases h

/-- **A table can be dropped.** -/
theorem Sound.remove {c c' : Catalog} (h : c.Sound) {name : String} {id : TableId}
    (hok : c.remove name = .ok (id, c')) : c'.Sound := by
  obtain ⟨hget, rfl⟩ := remove_ok hok
  obtain ⟨t, ht, hname, -⟩ := h.named name id (mem_of_get hget)
  rw [table_of_some ht]
  have hof : ∀ (j : Nat) (u : Table),
      (c.setTable id { t with dropped := true }).tables[j]? = some u →
      (j = id ∧ u = { t with dropped := true }) ∨ (j ≠ id ∧ c.tables[j]? = some u) := by
    intro j u hu
    rw [tables_setTable ht] at hu
    split at hu
    · exact Or.inl ⟨‹_›, (Option.some.inj hu).symm⟩
    · exact Or.inr ⟨‹_›, hu⟩
  refine ⟨fun j u hu => ?_, ?_, fun n j hn => ?_, fun j u hu hd => ?_⟩
  · rcases hof j u hu with ⟨rfl, rfl⟩ | ⟨-, hu⟩
    · obtain ⟨hts, hlen⟩ := h.tables _ t ht
      exact ⟨hts.withDropped true, hlen⟩
    · exact h.tables j u hu
  · exact h.names_nodup.sublist (List.filter_sublist.map _)
  · obtain ⟨hm, hne⟩ := List.mem_filter.mp hn
    obtain ⟨u, hu, hname', hdrop⟩ := h.named n j hm
    have hj : j ≠ id := by
      rintro rfl
      obtain rfl := Option.some.inj (ht.symm.trans hu)
      simp [← hname, hname'] at hne
    exact ⟨u, by rw [tables_setTable ht, if_neg hj, hu], hname', hdrop⟩
  · rcases hof j u hu with ⟨rfl, rfl⟩ | ⟨hj, hu⟩
    · cases hd
    · refine List.mem_filter.mpr ⟨h.unnamed j u hu hd, ?_⟩
      have hne : u.name ≠ name := by
        intro heq
        exact hj (Except.ok.inj ((h.find hu hd).symm.trans (heq ▸ hget)))
      simpa using hne

end Catalog

/-! ## Transactions that go on -/

/-- More tables do not matter to changes that can be taken back. -/
theorem Undoable.mono {types? types' : TableId → Option (List ColumnType)}
    (ht : ∀ id types, types? id = some types → types' id = some types) {undo : List UndoRecord}
    (h : Undoable types? undo) : Undoable types' undo := by
  have hsome : ∀ id, (types? id).isSome → (types' id).isSome := by
    intro id hs
    obtain ⟨types, htypes⟩ := Option.isSome_iff_exists.mp hs
    rw [ht id types htypes]
    rfl
  induction h with
  | nil => exact .nil
  | @snoc undo change _ hc ih =>
    refine ih.snoc ?_
    cases change with
    | insert table start n => exact ⟨hsome table hc.1, hc.2⟩
    | delete table rows => exact hsome table hc
    | update table column rows before =>
      obtain ⟨hlen, types, type, htypes, htype, hrows⟩ := hc
      exact ⟨hlen, types, type, ht _ _ htypes, htype, hrows⟩

theorem Transaction.Recorded.mono {x : Transaction}
    {types? types' : TableId → Option (List ColumnType)}
    (ht : ∀ id types, types? id = some types → types' id = some types)
    (h : x.Recorded types?) : x.Recorded types' where
  undoable := h.undoable.mono ht
  locals := by
    refine ⟨h.locals.nodup, fun table => ?_⟩
    have hrows := h.locals.rows table
    cases hl : x.locals.get? table with
    | none =>
      rw [hl] at hrows
      exact hrows
    | some l =>
      rw [hl] at hrows
      obtain ⟨⟨types, htypes, hs⟩, hc⟩ := hrows
      exact ⟨⟨types, ht _ _ htypes, hs⟩, hc⟩
  nodup := h.nodup

/-- Nothing is recorded about a table that is not there. -/
theorem Undoable.unrecorded {types? : TableId → Option (List ColumnType)}
    {undo : List UndoRecord} (h : Undoable types? undo) {id : TableId} (hid : types? id = none) :
    undo.flatMap (·.deletedRows id) = [] ∧ ∀ column, undo.flatMap (·.imagePairs id column) = [] := by
  have hne : ∀ change ∈ undo, change.table ≠ id := by
    rintro change hm rfl
    obtain ⟨front, hc⟩ := h.mem hm
    cases change with
    | insert table start n =>
      have := hc.1
      rw [show types? table = none from hid] at this
      cases this
    | delete table rows =>
      have : (types? table).isSome := hc
      rw [show types? table = none from hid] at this
      cases this
    | update table column rows before =>
      obtain ⟨-, types, type, htypes, -⟩ := hc
      cases hid.symm.trans htypes
  refine ⟨List.flatMap_eq_nil_iff.mpr fun change hm => ?_, fun column =>
    List.flatMap_eq_nil_iff.mpr fun change hm => ?_⟩
  · cases change with
    | delete table rows => exact if_neg (hne _ hm)
    | insert => rfl
    | update => rfl
  · cases change with
    | update table i rows before => exact if_neg fun hh => hne _ hm hh.1
    | insert => rfl
    | delete => rfl

/-! ## Creating and dropping -/

namespace TableOwned

/-- **A table without rows belongs to nobody.** -/
theorem empty {last : Stamp} {source : Source} {safe : StoredValues → Prop}
    {active : List Transaction} {id : TableId} {t : Table} (hts : t.Sound) (hrows : t.rows = 0)
    (hstored : t.stored = []) (hunrecorded : ∀ x ∈ active,
      x.deletedRows id = [] ∧ ∀ i r, x.images id i r = []) :
    TableOwned last source safe active id t where
  rows r := by
    rw [Table.stamps?_eq_none.mpr (hrows ▸ Nat.zero_le r)]
    intro x hx
    rw [(hunrecorded x hx).1]
    exact List.not_mem_nil
  cells i r := by
    rw [Table.chain_of_le hts (hrows ▸ Nat.zero_le r)]
    exact Or.inl ⟨by simp, fun x hx => (hunrecorded x hx).2 i r⟩
  readable c hc row hrow := by
    obtain ⟨i, hi⟩ := List.mem_iff_getElem?.mp hc
    obtain ⟨d, -, -, hh⟩ := Table.holds_of_some hts hi
    rw [hh.rows_eq, hrows] at hrow
    exact absurd hrow (Nat.not_lt_zero _)
  safe v hv := by
    rw [hstored] at hv
    cases hv
  fits i type _ r v hv := by
    rw [Table.chain_of_le hts (hrows ▸ Nat.zero_le r)] at hv
    cases hv

/-- That a table is dropped does not matter to who owns it. -/
theorem withDropped {last : Stamp} {source : Source} {safe : StoredValues → Prop}
    {active : List Transaction} {id : TableId} {t : Table}
    (h : TableOwned last source safe active id t) (dropped : Bool) :
    TableOwned last source safe active id { t with dropped } :=
  ⟨h.rows, h.cells, h.readable, h.safe, h.fits⟩

end TableOwned

namespace Database

variable {db db' : Database} {active : List Transaction}

/-- What logging a change of the schema does. -/
theorem logCommitted_ok {entries : List LogEntry} (hok : db.logCommitted entries = .ok db') :
    ∃ b, Frame.encodeAll (entries ++ [.commit (db.lastCommit + 1)]) = .ok b ∧
      db' = (db.withLog b).publish (db.lastCommit + 1) := by
  obtain ⟨time, htime, h⟩ := bind_eq_ok.mp hok
  obtain ⟨db₁, happend, h⟩ := bind_eq_ok.mp h
  unfold nextCommit at htime
  split at htime
  · obtain rfl := Except.ok.inj htime
    obtain ⟨b, hb, rfl⟩ := appendLog_ok happend
    exact ⟨b, hb, (Except.ok.inj h).symm⟩
  · cases htime

/-- **Another commit does not matter to the active transactions.** -/
theorem Sound.publish (h : db.Sound active) {time : Stamp} (ht : db.lastCommit ≤ time)
    (hlt : time < firstTransaction) : (db.publish time).Sound active := by
  refine { h with last_lt := hlt, ids := fun x hx => ?_, owned := fun id t htab => ?_ }
  · obtain ⟨hge, hx, hstart⟩ := h.ids x hx
    exact ⟨hge, hx, Nat.le_trans hstart ht⟩
  · exact (h.owned id t htab).mono ht

/-- **What the creation of a table does.** -/
theorem createTable_ok {name : String} {definitions : List ColumnDefinition} {id : TableId}
    (hok : db.createTable name definitions = .ok (id, db')) :
    ∃ t b c', Table.new name definitions db.policy = .ok t ∧
      Frame.encodeAll [.createTable name definitions, .commit (db.lastCommit + 1)] = .ok b ∧
      db.catalog.insert t = .ok (id, c') ∧
      db' = { (db.withLog b).publish (db.lastCommit + 1) with catalog := c' } := by
  unfold createTable at hok
  split at hok
  · cases hok
  obtain ⟨t, ht, h⟩ := bind_eq_ok.mp hok
  obtain ⟨db₁, hlog, h⟩ := bind_eq_ok.mp h
  obtain ⟨⟨i, c'⟩, hinsert, h⟩ := bind_eq_ok.mp h
  obtain ⟨b, hb, rfl⟩ := logCommitted_ok hlog
  obtain ⟨rfl, rfl⟩ := Prod.mk.inj (Except.ok.inj h)
  exact ⟨t, b, c', mapError_eq_ok.mp ht, hb, mapError_eq_ok.mp hinsert, rfl⟩

/-- **What dropping a table does.** -/
theorem dropTable_ok {name : String} (hok : db.dropTable name = .ok db') :
    ∃ id b c', Frame.encodeAll [.dropTable name, .commit (db.lastCommit + 1)] = .ok b ∧
      db.catalog.remove name = .ok (id, c') ∧
      db' = { (db.withLog b).publish (db.lastCommit + 1) with catalog := c' } := by
  obtain ⟨i, hi, h⟩ := bind_eq_ok.mp hok
  obtain ⟨db₁, hlog, h⟩ := bind_eq_ok.mp h
  obtain ⟨⟨id, c'⟩, hremove, h⟩ := bind_eq_ok.mp h
  obtain ⟨b, hb, rfl⟩ := logCommitted_ok hlog
  exact ⟨id, b, c', hb, mapError_eq_ok.mp hremove, (Except.ok.inj h).symm⟩

theorem types?_insert {c c' : Catalog} {t : Table} {id : TableId} (hok : c.insert t = .ok (id, c')) :
    ∀ j types, c.types? j = some types → c'.types? j = some types := by
  obtain ⟨-, -, rfl⟩ := Catalog.insert_ok hok
  intro j types h
  rw [Catalog.types?] at h ⊢
  obtain ⟨u, hu, rfl⟩ := Option.map_eq_some_iff.mp h
  rw [Catalog.getElem?_push, if_neg (Nat.ne_of_lt (Catalog.lt_of_some hu)), hu]
  rfl

/-- **Adding an empty table.** -/
theorem Sound.insert (h : db.Sound active) {t : Table} (hs : t.Sound) (hrows : t.rows = 0)
    (hstored : t.stored = []) (hdropped : t.dropped = false)
    (hd : t.definitions.length < UInt64.size) {c' : Catalog} {id : TableId}
    (hok : db.catalog.insert t = .ok (id, c')) : Sound { db with catalog := c' } active := by
  have hsound := h.catalog.insert hs hd hdropped hok
  have htypes := types?_insert hok
  obtain ⟨-, rfl, rfl⟩ := Catalog.insert_ok hok
  refine { h with
    catalog := hsound
    recorded := fun x hx => (h.recorded x hx).mono htypes
    owned := fun j u hu => ?_ }
  rw [Catalog.getElem?_push] at hu
  split at hu
  · rename_i hj
    obtain rfl := Option.some.inj hu
    refine TableOwned.empty hs hrows hstored fun x hx => ?_
    have hnone : db.catalog.types? j = none := by
      rw [Catalog.types?, hj, Array.getElem?_eq_none (Nat.le_refl _)]
      rfl
    obtain ⟨hdel, himg⟩ := (h.recorded x hx).undoable.unrecorded hnone
    refine ⟨hdel, fun i r => ?_⟩
    rw [Transaction.images, himg i]
    rfl
  · exact h.owned j u hu

/-- **Dropping a table.** -/
theorem Sound.remove (h : db.Sound active) {name : String} {c' : Catalog} {id : TableId}
    (hok : db.catalog.remove name = .ok (id, c')) : Sound { db with catalog := c' } active := by
  have hsound := h.catalog.remove hok
  obtain ⟨hget, rfl⟩ := Catalog.remove_ok hok
  obtain ⟨t, ht, -, -⟩ := h.catalog.named name id (Catalog.mem_of_get hget)
  rw [Catalog.table_of_some ht] at hsound ⊢
  refine { h with
    catalog := hsound
    recorded := fun x hx => ?_
    owned := fun j u hu => ?_ }
  · change x.Recorded (db.catalog.setTable id { t with dropped := true }).types?
    have hdefs : ({ t with dropped := true } : Table).definitions = t.definitions := rfl
    rw [Catalog.types?_setTable ht hdefs]
    exact h.recorded x hx
  · change (db.catalog.setTable id { t with dropped := true }).tables[j]? = some u at hu
    rw [Catalog.tables_setTable ht] at hu
    split at hu
    · rename_i hj
      obtain rfl := Option.some.inj hu
      exact hj ▸ (h.owned id t ht).withDropped true
    · exact h.owned j u hu

/-- A table of so many columns that they cannot be counted in 64 bits does not fit into a frame. -/
theorem length_definitions_lt {name : String} {definitions : List ColumnDefinition}
    {rest : List LogEntry} {b : Bytes}
    (hb : Frame.encodeAll (.createTable name definitions :: rest) = .ok b) :
    definitions.length < UInt64.size := by
  obtain ⟨frame, hframe, -⟩ := bind_eq_ok.mp hb
  obtain ⟨hlt, -⟩ := Frame.encode_ok hframe
  have hsum := Coder.length_le_flatMap Coder.length_definition_pos definitions
  have hle : definitions.length ≤
      (LogEntry.coder.encode (.createTable name definitions)).length := by
    refine Nat.le_trans hsum ?_
    simp only [LogEntry.coder, LogEntry.encodeFields, LogEntry.definitions, Coder.pair,
      Coder.list, List.length_append]
    omega
  exact Nat.lt_trans (Nat.lt_of_le_of_lt hle hlt) (by decide)

/-- **Creating a table** leaves the database sound. -/
theorem Sound.createTable (h : db.Sound active) (hp : 0 < db.policy.capacity)
    (hlt : db.lastCommit + 1 < firstTransaction) {name : String}
    {definitions : List ColumnDefinition} {id : TableId}
    (hok : db.createTable name definitions = .ok (id, db')) : db'.Sound active := by
  obtain ⟨t, b, c', hnew, hb, hinsert, rfl⟩ := createTable_ok hok
  obtain ⟨hs, -, hdefs, -, hdropped, hrows, hstored⟩ := Table.new_ok hp hnew
  have hlen : t.definitions.length < UInt64.size := by
    rw [hdefs]
    exact length_definitions_lt hb
  exact ((h.withLog b).publish (Nat.le_succ _) hlt).insert hs hrows hstored hdropped hlen hinsert

/-- **Dropping a table** leaves the database sound. -/
theorem Sound.dropTable (h : db.Sound active) (hlt : db.lastCommit + 1 < firstTransaction)
    {name : String} (hok : db.dropTable name = .ok db') : db'.Sound active := by
  obtain ⟨id, b, c', -, hremove, rfl⟩ := dropTable_ok hok
  exact ((h.withLog b).publish (Nat.le_succ _) hlt).remove hremove

end Database
end ColumnStore
