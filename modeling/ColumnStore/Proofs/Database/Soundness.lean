/-
# Sound databases

A database is sound with some active transactions when its tables are, when the numbers that stand
for stamps in them are those of the transactions that have recorded it, and when everything can be
read.  Every operation keeps that.
-/

import ColumnStore.Database.Session
import ColumnStore.Proofs.Storage.Stored
import ColumnStore.Proofs.Transaction.Locals
import ColumnStore.Proofs.Transaction.Ownership

namespace ColumnStore

/-! ## Catalogs -/

namespace Catalog

/-- The types of the columns of the table with a number. -/
def types? (c : Catalog) (id : TableId) : Option (List ColumnType) :=
  c.tables[id]?.map Table.types

/-- Sound tables, each with a name of its own unless it is dropped. -/
structure Sound (c : Catalog) : Prop where
  tables : ∀ (id : Nat) (t : Table), c.tables[id]? = some t →
    t.Sound ∧ t.definitions.length < UInt64.size
  names_nodup : (c.names.map (·.1)).Nodup
  named : ∀ name id, (name, id) ∈ c.names →
    ∃ t, c.tables[id]? = some t ∧ t.name = name ∧ t.dropped = false
  unnamed : ∀ (id : Nat) (t : Table), c.tables[id]? = some t → t.dropped = false →
    (t.name, id) ∈ c.names

theorem table_of_some {c : Catalog} {id : Nat} {t : Table} (h : c.tables[id]? = some t) :
    c.table id = t := by
  rw [table, Array.getD_eq_getD_getElem?, h]
  rfl

theorem lt_of_some {c : Catalog} {id : Nat} {t : Table} (h : c.tables[id]? = some t) :
    id < c.tables.size := (Array.getElem?_eq_some_iff.mp h).1

theorem tables_setTable {c : Catalog} {id : Nat} {t : Table} (h : c.tables[id]? = some t)
    (t' : Table) (i : Nat) :
    (c.setTable id t').tables[i]? = if i = id then some t' else c.tables[i]? := by
  have hlt := lt_of_some h
  rw [setTable, Array.getElem?_setIfInBounds]
  by_cases hi : i = id
  · subst hi
    rw [if_pos rfl, if_pos rfl, if_pos hlt]
  · rw [if_neg (Ne.symm hi), if_neg hi]

theorem setTable_self {c : Catalog} {id : Nat} {t : Table} (h : c.tables[id]? = some t) :
    c.setTable id t = c := by
  obtain ⟨tables, names⟩ := c
  simp only [setTable, Catalog.mk.injEq, and_true]
  refine Array.ext_getElem? fun i => ?_
  have := tables_setTable (c := ⟨tables, names⟩) h t i
  simp only [setTable] at this
  rw [this]
  split
  · rename_i hi
    rw [hi]
    exact h.symm
  · rfl

/-- Another state of a table, with the same name and columns. -/
theorem Sound.setTable {c : Catalog} (h : c.Sound) {id : Nat} {t t' : Table}
    (ht : c.tables[id]? = some t) (hs : t'.Sound) (hname : t'.name = t.name)
    (hdefs : t'.definitions = t.definitions) (hdropped : t'.dropped = t.dropped) :
    (c.setTable id t').Sound where
  tables i u hu := by
    rw [tables_setTable ht] at hu
    split at hu
    · obtain rfl := Option.some.inj hu
      exact ⟨hs, hdefs ▸ (h.tables id t ht).2⟩
    · exact h.tables i u hu
  names_nodup := h.names_nodup
  named name i hn := by
    obtain ⟨u, hu, hname', hd⟩ := h.named name i hn
    rw [tables_setTable ht]
    split
    · rename_i hi
      subst hi
      obtain rfl := Option.some.inj (ht.symm.trans hu)
      exact ⟨t', rfl, hname.trans hname', hdropped.trans hd⟩
    · exact ⟨u, hu, hname', hd⟩
  unnamed i u hu hd := by
    rw [tables_setTable ht] at hu
    split at hu
    · rename_i hi
      subst hi
      obtain rfl := Option.some.inj hu
      rw [hname]
      exact h.unnamed i t ht (hdropped ▸ hd)
    · exact h.unnamed i u hu hd

theorem types?_setTable {c : Catalog} {id : Nat} {t t' : Table} (ht : c.tables[id]? = some t)
    (hdefs : t'.definitions = t.definitions) : (c.setTable id t').types? = c.types? := by
  funext i
  rw [types?, types?, tables_setTable ht]
  split
  · rename_i hi
    rw [hi, ht, Option.map_some, Option.map_some, Table.types, Table.types, hdefs]
  · rfl

/-- A name belongs to one table. -/
theorem Sound.find {c : Catalog} (h : c.Sound) {id : Nat} {t : Table} (ht : c.tables[id]? = some t)
    (hd : t.dropped = false) : c.get t.name = .ok id := by
  have hm := h.unnamed id t ht hd
  have hn := h.names_nodup
  have : c.find? t.name = some id := by
    rw [find?]
    generalize c.names = names at hm hn
    induction names with
    | nil => cases hm
    | cons p rest ih =>
      obtain ⟨n, i⟩ := p
      rw [List.map_cons, List.nodup_cons] at hn
      rcases List.mem_cons.mp hm with heq | hrest
      · obtain ⟨rfl, rfl⟩ := Prod.mk.inj heq
        simp
      · have hne : t.name ≠ n := fun heq => hn.1 (heq ▸ List.mem_map.mpr ⟨_, hrest, rfl⟩)
        rw [List.lookup_cons, show (t.name == n) = false from by simpa using hne]
        exact ih hrest hn.2
  rw [get, this]

end Catalog

/-! ## Records -/

/-- The local rows of a table that were added by a change. -/
def UndoRecord.added (table : TableId) : UndoRecord → Nat
  | .insert t _ n => if t = table then n else 0
  | _ => 0

@[simp] theorem UndoRecord.added_delete (table t : TableId) (rows : List Nat) :
    added table (.delete t rows) = 0 := rfl

@[simp] theorem UndoRecord.added_update (table t : TableId) (i : Nat) (rows : List Nat)
    (before : List Scalar) : added table (.update t i rows before) = 0 := rfl

/-- The local rows of a table that were added by some changes. -/
def localCount (table : TableId) : List UndoRecord → Nat
  | [] => 0
  | change :: rest => change.added table + localCount table rest

@[simp] theorem localCount_nil (table : TableId) : localCount table [] = 0 := rfl

@[simp] theorem localCount_append (table : TableId) (undo more : List UndoRecord) :
    localCount table (undo ++ more) = localCount table undo + localCount table more := by
  induction undo with
  | nil => simp
  | cons change rest ih => rw [List.cons_append, localCount, localCount, ih, Nat.add_assoc]

/-- A change after others that can be taken back: it knows which local rows were there before, and
for every row that was written over there is a value that was there before. -/
def UndoRecord.UndoableAfter (types? : TableId → Option (List ColumnType))
    (undo : List UndoRecord) : UndoRecord → Prop
  | .insert table start n => (types? table).isSome ∧ start = localCount table undo ∧ 0 < n
  | .delete table _ => (types? table).isSome
  | .update table column rows before =>
    rows.length = before.length ∧ ∃ types type, types? table = some types ∧
      types[column]? = some type ∧ ∀ p ∈ rows.zip before, isLocalRow p.1 = true →
        p.1 - firstLocalRow < localCount table undo ∧ p.2.fits type = true

/-- Changes, the oldest first, that can be taken back. -/
inductive Undoable (types? : TableId → Option (List ColumnType)) : List UndoRecord → Prop
  | nil : Undoable types? []
  | snoc {undo : List UndoRecord} {change : UndoRecord} (h : Undoable types? undo)
      (hc : change.UndoableAfter types? undo) : Undoable types? (undo ++ [change])

theorem Undoable.init {types? : TableId → Option (List ColumnType)} {undo : List UndoRecord}
    {change : UndoRecord} (h : Undoable types? (undo ++ [change])) :
    Undoable types? undo ∧ change.UndoableAfter types? undo := by
  generalize hu : undo ++ [change] = all at h
  cases h with
  | nil => simp at hu
  | snoc h hc =>
    obtain ⟨rfl, hlast⟩ := List.append_inj' hu rfl
    obtain rfl := List.singleton_inj.mp hlast
    exact ⟨h, hc⟩

theorem Undoable.mem {types? : TableId → Option (List ColumnType)} {undo : List UndoRecord}
    (h : Undoable types? undo) {change : UndoRecord} (hm : change ∈ undo) :
    ∃ front, change.UndoableAfter types? front := by
  induction h with
  | nil => cases hm
  | snoc _ hc ih =>
    rcases List.mem_append.mp hm with hm | hm
    · exact ih hm
    · obtain rfl := List.mem_singleton.mp hm
      exact ⟨_, hc⟩

/-- The local rows of a table fit its columns and are as many as were added; none are kept if none
were added. -/
def LocalsAt (types : Option (List ColumnType)) (count : Nat) : Option LocalRows → Prop
  | some l => (∃ ts, types = some ts ∧ l.Sound ts) ∧ l.count = count
  | none => count = 0

/-- The local rows are those that were added. -/
structure LocalsAgree (types? : TableId → Option (List ColumnType)) (locals : LocalTables)
    (undo : List UndoRecord) : Prop where
  nodup : (locals.map (·.1)).Nodup
  rows : ∀ table, LocalsAt (types? table) (localCount table undo) (locals.get? table)

/-- A transaction whose changes can be taken back. -/
structure Transaction.Recorded (x : Transaction)
    (types? : TableId → Option (List ColumnType)) : Prop where
  undoable : Undoable types? x.undo
  locals : LocalsAgree types? x.locals x.undo
  nodup : ∀ table, (x.deletedRows table).Nodup

/-! ## Databases -/

/-- The values that are written over rows are of the types of their columns. -/
def Table.Fits (t : Table) : Prop :=
  ∀ (i : Nat) (type : ColumnType), t.types[i]? = some type →
    ∀ r, ∀ v ∈ t.chain i r, v.value.fits type = true

/-- A table in which everything can be read and nothing is written by anyone but the active
transactions. -/
structure TableOwned (last : Stamp) (source : Source) (safe : StoredValues → Prop)
    (active : List Transaction) (id : TableId) (t : Table) : Prop where
  rows : ∀ r, RowOwned last active id r (t.stamps? r)
  cells : ∀ i r, CellOwned last active id i r (t.under source i r) (t.chain i r)
  readable : t.Readable source
  safe : t.Safe safe
  fits : t.Fits

namespace Database

/-- A stored segment that writing to the log does not touch. -/
def SafeFile (db : Database) (s : StoredValues) : Prop := s.blocks.file ≠ db.log.file

/-- A database with some active transactions. -/
structure Sound (db : Database) (active : List Transaction) : Prop where
  catalog : db.catalog.Sound
  last_lt : db.lastCommit < firstTransaction
  next_ge : firstTransaction ≤ db.nextTransaction
  next_le : db.nextTransaction ≤ neverDeleted
  distinct : (active.map (·.id)).Nodup
  ids : ∀ x ∈ active,
    firstTransaction ≤ x.id ∧ x.id < db.nextTransaction ∧ x.start ≤ db.lastCommit
  listed : ∀ id, id ∈ db.active ↔ id ∈ active.map (·.id)
  recorded : ∀ x ∈ active, x.Recorded db.catalog.types?
  owned : ∀ (id : Nat) (t : Table), db.catalog.tables[id]? = some t →
    TableOwned db.lastCommit db.disk.source db.SafeFile active id t
  kept : db.decoded.Kept db.disk db.SafeFile

theorem Sound.perm {db : Database} {active active' : List Transaction} (h : db.Sound active)
    (hp : active.Perm active') : db.Sound active' where
  catalog := h.catalog
  last_lt := h.last_lt
  next_ge := h.next_ge
  next_le := h.next_le
  distinct := (hp.map _).nodup_iff.mp h.distinct
  ids x hx := h.ids x (hp.mem_iff.mpr hx)
  listed id := (h.listed id).trans (hp.map _).mem_iff
  recorded x hx := h.recorded x (hp.mem_iff.mpr hx)
  owned id t ht :=
    have ho := h.owned id t ht
    ⟨fun r => (ho.rows r).congr fun _ => hp.mem_iff.symm,
      fun i r => (ho.cells i r).congr fun _ => hp.mem_iff.symm, ho.readable, ho.safe, ho.fits⟩
  kept := h.kept

section Session

variable {db : Database} {x : Transaction} {others : List Transaction}

theorem Sound.others_ne (h : db.Sound (x :: others)) : ∀ y ∈ others, y.id ≠ x.id := by
  have := h.distinct
  rw [List.map_cons, List.nodup_cons] at this
  intro y hy he
  exact this.1 (he ▸ List.mem_map_of_mem hy)

theorem Sound.ids_lt (h : db.Sound (x :: others)) : ∀ y ∈ x :: others, y.id < neverDeleted :=
  fun y hy => Nat.lt_of_lt_of_le (h.ids y hy).2.1 h.next_le

theorem Sound.last_lt_ids (h : db.Sound (x :: others)) : ∀ y ∈ x :: others, db.lastCommit < y.id :=
  fun y hy => Nat.lt_of_lt_of_le h.last_lt (h.ids y hy).1

/-- **What is read does not depend on what is kept.** -/
theorem Sound.under_eq {active : List Transaction} (h : db.Sound active) {id : Nat} {t : Table}
    (ht : db.catalog.tables[id]? = some t) (i row : Nat) :
    t.under db.source i row = t.under db.disk.source i row :=
  Table.under_congr (fun v hv => h.kept.load_eq ((h.owned id t ht).safe v hv)) i row

theorem Sound.readable {active : List Transaction} (h : db.Sound active) {id : Nat} {t : Table}
    (ht : db.catalog.tables[id]? = some t) : t.Readable db.source := by
  intro c hc row hrow
  have ho := h.owned id t ht
  have hcong : c.under db.source row = c.under db.disk.source row :=
    Column.under_congr (fun v hv => h.kept.load_eq (ho.safe.column hc v hv)) row
  rw [hcong]
  exact ho.readable c hc row hrow

/-- **What is read may be kept.** -/
theorem Sound.remember {active : List Transaction} (h : db.Sound active) {α : Type}
    {r : Reading α} (hr : r.Honest db.source db.SafeFile) :
    (db.remember r.decoded).Sound active :=
  { h with kept := hr.kept h.kept }

end Session

end Database
end ColumnStore
