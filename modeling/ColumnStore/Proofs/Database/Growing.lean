/-
# What was read stays readable

A disk that grows keeps the blocks that could be read, so what was decoded, the tables that could be
read and what a ledger tells of them stay as they are (`Ledger.Tells.keeps`).
-/

import ColumnStore.Proofs.Database.Ledger
import ColumnStore.Proofs.Disk.Names

namespace ColumnStore

/-! ## Disks that grow -/

/-- A file that is too short for a block has none. -/
theorem BlockFile.length_of_read {f : BlockFile} {d : Disk} {p : BlockPointer} {b : Bytes}
    (h : f.read d p = .ok b) : headerArea ≤ (d.bytes f.file).length := by
  rw [read] at h
  dsimp only at h
  split at h
  · cases h
  split at h
  · cases h
  split at h
  · cases h
  · rename_i raw hraw
    rw [Bytes.slice?] at hraw
    split at hraw
    · omega
    · cases hraw

/-- What is read lies in a file that there is. -/
theorem BlockFile.lt_of_read {f : BlockFile} {d : Disk} {p : BlockPointer} {b : Bytes}
    (h : f.read d p = .ok b) : f.file < d.contents.size := by
  by_contra hge
  have hlong := length_of_read h
  rw [Disk.bytes, Array.getD_eq_getD_getElem?, Array.getElem?_eq_none (Nat.le_of_not_lt hge)] at hlong
  exact absurd hlong (by decide)

/-- Whatever can be read from one source, in segments that are safe, can be read from another one. -/
def Source.Keeps (safe : StoredValues → Prop) (source source' : Source) : Prop :=
  ∀ v w, safe v → source.load v = .ok w → source'.load v = .ok w

theorem Source.Keeps.trans {safe : StoredValues → Prop} {source source₁ source' : Source}
    (h : source.Keeps safe source₁) (h' : source₁.Keeps safe source') : source.Keeps safe source' :=
  fun v w hv hload => h' v w hv (h v w hv hload)

namespace Disk.Grows

variable {d d' : Disk} {file : FileId} {safe : StoredValues → Prop}

/-- **A disk that grows keeps** what does not lie in the file that may change. -/
theorem keeps (h : d.Grows file d') (hsafe : ∀ v, safe v → v.blocks.file ≠ file) :
    Source.Keeps safe d.source d'.source := by
  intro v w hv hload
  obtain ⟨b, hb, -⟩ := bind_eq_ok.mp hload
  exact (Disk.load_congr (h.bytes_eq _ (BlockFile.lt_of_read hb) (hsafe v hv))).trans hload

/-- **A disk that grows keeps** everything if the file that may change is too short for a block. -/
theorem keeps_short (h : d.Grows file d') (hshort : (d.bytes file).length < BlockFile.headerArea)
    (safe : StoredValues → Prop) : Source.Keeps safe d.source d'.source := by
  intro v w _ hload
  obtain ⟨b, hb, -⟩ := bind_eq_ok.mp hload
  have hne : v.blocks.file ≠ file := fun heq =>
    absurd (BlockFile.length_of_read hb) (Nat.not_le.mpr (heq ▸ hshort))
  exact (Disk.load_congr (h.bytes_eq _ (BlockFile.lt_of_read hb) hne)).trans hload

end Disk.Grows

/-- **What was decoded** is still what the blocks hold. -/
theorem Decoded.Kept.keeps {decoded : Decoded} {d d' : Disk} {safe : StoredValues → Prop}
    (h : decoded.Kept d safe) (hk : Source.Keeps safe d.source d'.source) : decoded.Kept d' safe :=
  fun s v hs hv => hk s v hs (h s v hs hv)

/-- What is kept is what can be read. -/
theorem Decoded.Kept.known {decoded : Decoded} {d : Disk} {safe : StoredValues → Prop}
    (h : decoded.Kept d safe) : Source.Keeps safe d.source (.ofDisk d decoded) :=
  fun _ _ hv hload => (h.load_eq hv).trans hload

/-! ## Columns and tables -/

variable {source source' : Source} {safe : StoredValues → Prop}

theorem Segment.base_keeps {s : Segment} (h : s.Safe safe) (hk : source.Keeps safe source')
    {v : ValueVector} (hv : (s.base source).result = .ok v) : (s.base source').result = .ok v := by
  unfold base at hv ⊢
  cases hd : s.data with
  | stored x =>
    rw [hd] at hv
    simp only [Reading.result_load] at hv ⊢
    exact hk x v (h x (by rw [stored?, hd])) hv
  | buffer w | sealed image w =>
    rw [hd] at hv
    exact hv

theorem Column.under_keeps {c : Column} (h : c.Safe safe) (hk : source.Keeps safe source') {row : Nat}
    {x : Scalar} (hx : c.under source row = .ok x) : c.under source' row = .ok x := by
  obtain ⟨⟨i, s, p⟩, hl, hx⟩ := bind_eq_ok.mp hx
  obtain ⟨v, hv, hx⟩ := bind_eq_ok.mp hx
  have hs := h.segment (List.mem_of_getElem? (mem_of_locate hl))
  unfold under
  simp only [hl, ok_bind, Segment.under, Segment.base_keeps hs hk hv]
  exact hx

namespace Table

variable {t : Table}

theorem value_keeps (h : t.Safe safe) (hk : source.Keeps safe source') {i row : Nat} {s : Snapshot}
    {x : Scalar} (hx : t.value source i row s = .ok x) : t.value source' i row s = .ok x := by
  unfold value readOver at hx ⊢
  cases hseen : seen? (t.chain i row) s with
  | some y => rwa [hseen] at hx
  | none =>
    rw [hseen] at hx
    obtain ⟨c, hc, hx⟩ := bind_eq_ok.mp hx
    exact bind_eq_ok.mpr ⟨c, hc,
      Column.under_keeps (h.column (List.mem_of_getElem? (column_eq_ok.mp hc))) hk hx⟩

theorem Readable.keeps (hr : t.Readable source) (h : t.Safe safe) (hk : source.Keeps safe source') :
    t.Readable source' := by
  intro c hc row hrow
  obtain ⟨x, hx⟩ := hr c hc row hrow
  exact ⟨x, Column.under_keeps (h.column hc) hk hx⟩

theorem Shows.keeps {r : Nat} {x : Option Row} (hx : t.Shows source r x) (h : t.Safe safe)
    (hk : source.Keeps safe source') : t.Shows source' r x where
  visible := hx.visible
  values row hrow := by
    obtain ⟨hlen, hvalues⟩ := hx.values row hrow
    refine ⟨hlen, fun i y hy => ?_⟩
    obtain ⟨v, hv, hsame⟩ := hvalues i y hy
    exact ⟨v, value_keeps h hk hv, hsame⟩

end Table

/-! ## Catalogs -/

/-- A catalog whose stored segments are safe. -/
def Catalog.Safe (safe : StoredValues → Prop) (c : Catalog) : Prop :=
  ∀ (id : Nat) (t : Table), c.tables[id]? = some t → t.Safe safe

theorem Catalog.Settled.tables_safe {policy : SegmentPolicy} {last : Stamp} {c : Catalog}
    (h : c.Settled policy safe last) : c.Safe safe := fun id t ht => (h.tables id t ht).2.safe

theorem Catalog.Readable.keeps {c : Catalog} (hr : c.Readable source) (h : c.Safe safe)
    (hk : source.Keeps safe source') : c.Readable source' :=
  fun id t ht => (hr id t ht).keeps (h id t ht) hk

theorem LedgerTable.Tells.keeps {l : LedgerTable} {t : Table} (hl : l.Tells source t)
    (h : t.Safe safe) (hk : source.Keeps safe source') : l.Tells source' t where
  definitions_eq := hl.definitions_eq
  rows_eq := hl.rows_eq
  shows r x hx := (hl.shows r x hx).keeps h hk

/-- **What a ledger tells** can still be read. -/
theorem Ledger.Tells.keeps {l : Ledger} {c : Catalog} (hl : l.Tells source c) (h : c.Safe safe)
    (hk : source.Keeps safe source') : l.Tells source' c where
  names := hl.names
  tables x hx := by
    obtain ⟨id, t, hm, ht, hxt⟩ := hl.tables x hx
    exact ⟨id, t, hm, ht, hxt.keeps (h id t ht) hk⟩

end ColumnStore
